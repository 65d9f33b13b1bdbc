import OsLab.Sched.Mutex
import OsLab.Sched.Spares

/-!
# Condition variables

A call of `do_condition_wait` is spread over several kernel entries: it enqueues its task and releases
the mutex in one, and when the task has been woken it goes on in others, in the loop that acquires the
mutex again. A `Waiting` is such a call under way, and the book of a condition is the list of them in
the order in which they were made, kept by watching the run. The queue of the condition holds the
calls that have not been woken, so that its first task is the one that waits longest; a call is woken
only by `do_condition_signal`, `do_condition_broadcast` and `do_condition_destroy`, and returns only
after it has been woken and with the mutex.
-/

namespace OsLab.Sched

open Lib ProgM

/-- A call `do_condition_wait(k, mutex)` of `task` that has not returned yet. -/
structure Waiting where
  task : Slot
  mutex : Handle
  /-- The task has been made ready since the call. -/
  woken : Bool
  /-- A signal, a broadcast or a destroy of the condition has happened since the call. -/
  heard : Bool

/-- The calls that can wake tasks which wait on condition `k`. -/
def wakesCondition (k : Handle) : Action → Bool
  | .call (.do_condition_signal k') => k' = k
  | .call (.do_condition_broadcast k') => k' = k
  | .call (.do_condition_destroy k') => k' = k
  | _ => false

/-- The call of `do_condition_wait(k, _)` that is made in a step. -/
def conditionCaller (k : Handle) (m : Kernel) (h : Hart) : Action → Option Waiting
  | .call (.do_condition_wait k' x) => if k' = k then (m.current_running h).map (⟨·, x, false, false⟩) else none
  | _ => none

namespace Waiting

/-- A call under way, after a step that leads to `m`. -/
def after (w : Waiting) (loud : Bool) (m : Kernel) : Waiting :=
  { w with woken := w.woken || m.status w.task != .TASK_BLOCKED, heard := w.heard || loud }

/-- The book after a step that leads to `m`: a call is under way until its task is back in user mode. -/
def observe (l : List Waiting) (caller : Option Waiting) (loud : Bool) (m : Kernel) : List Waiting :=
  (l.map (·.after loud m) ++ caller.toList).filter fun w => m.resume w.task != .user

/-- The calls that have not been woken. -/
def asleep (l : List Waiting) : List Waiting := l.filter fun w => !w.woken

end Waiting

open Waiting

/-- Steps other than `do_kill`. -/
def NoKill (m : Kernel) (a : Action) : Prop := a.Valid m ∧ ∀ pid, a ≠ .call (.do_kill pid)

/-- The book of condition `k` after one more step. -/
abbrev bookAfter (k : Handle) (l : List Waiting) (s : Machine) (h : Hart) (a : Action) (s' : Machine) : List Waiting :=
  observe l (conditionCaller k s.mem h a) (wakesCondition k a) s'.mem

/-- Runs from the start, with the book of condition `k`. -/
inductive ConditionRun (k : Handle) : List Waiting → Machine → Prop where
  /-- The start. -/
  | boot {s : Machine} (hb : Boot s) : ConditionRun k [] s
  /-- One more step. -/
  | step {l : List Waiting} {s s' : Machine} {h : Hart} {a : Action} (hr : ConditionRun k l s) (hp : NoKill s.mem a)
      (hs : Step h a s s') : ConditionRun k (bookAfter k l s h a s') s'

variable {c : St} {s s' : Machine} {h : Hart} {a : Action} {i j : Slot} {k x : Handle} {q : Queue} {l : List Waiting}

/-! ### The calls -/

/-- `wakeAll` makes ready the tasks of the queue, and no others. -/
theorem wakeAll_exact (ha : At h i c) (hq : q ≠ .ready_queue) (hup : c.dev.Up q) :
    Ensures listed c (wakeAll q) fun _ c' =>
    At h i c' ∧ c'.dev q = [] ∧ (∀ j ∈ c.dev q, c'.mem.status j = .TASK_READY) ∧
        ∀ j, j ∉ c.dev q → c'.mem.status j = c.mem.status j := by
  have hother : Ensures listed c (wakeAll q) fun _ c' => ∀ q', q' ≠ .ready_queue → q ≠ q' → c'.dev q' = c.dev q' :=
    fun a c' he q' hr hne => (wakeAll_spares (o := none) hr hne c ha.disc.apart a c' he).2.1
  refine ((Ensures.of_returns (ha.wakeAll hq hup)).and hother).mono ?_
  rintro _ c' ⟨⟨ha', hf, -, hnil⟩, hsame⟩
  refine ⟨ha', hnil, fun j hj => ?_, fun j hj => ?_⟩
  · rcases hf.status j with e | ⟨-, e⟩
    · rw [ha.disc.blocked_iff.mpr ⟨q, hq, hj⟩] at e
      obtain ⟨q', hq', hj'⟩ := ha'.disc.blocked_iff.mp e
      obtain rfl := ha.disc.disjoint hj (hf.sub q' j hq' hj')
      rw [hnil] at hj'
      cases hj'
    · exact e
  · rcases hf.status j with e | ⟨e, e'⟩
    · exact e
    · obtain ⟨q', hq', hj'⟩ := ha.disc.blocked_iff.mp e
      have hne : q ≠ q' := by
        rintro rfl
        exact hj hj'
      rw [← hsame q' hq' hne] at hj'
      rw [ha'.disc.blocked_iff.mpr ⟨q', hq', hj'⟩] at e'
      cases e'

/-- A waiting task is at the end of the queue and its mutex is free when the call leaves the processor. -/
theorem do_condition_wait_ensures (ha : At h i c) (hk : (c.mem.condition k).active = true) :
    Ensures listed c (do_condition_wait h i k x) fun _ c' => c'.dev (.condition k) = c.dev (.condition k) ++ [i] ∧
      (c'.mem.mlocks x).locked = false ∧ c'.mem.resume i = .acquire x := by
  rw [do_condition_wait, setResume]
  refine Ensures.modify_bind (Ensures.seq (exec_do_block (q := .condition k) ha.free (by rintro i ⟨⟩)) ?_)
  have hm := ((ha.mid h).setResume ha.free (r := .acquire x) (by rintro k ⟨⟩)).block (q := .condition k)
    ha.here ha.running (by simp) hk
  generalize hc₁ : St.move _ _ _ _ = c₁ at hm ⊢
  have hq : (Queue.condition k).Meets := trivial
  have hdev₁ : c₁.dev (.condition k) = c.dev (.condition k) ++ [i] := by
    rw [← hc₁, dev_move, if_pos rfl, List.erase_of_not_mem (ha.free _)]
  have hres₁ : c₁.mem.resume i = .acquire x := by
    rw [← hc₁]
    exact Function.update_self ..
  have hst₁ : c₁.mem.status i ≠ .TASK_EXITED := by
    rw [← hc₁, status_move_self]
    decide
  have hrel : Ensures listed c₁ (do_mutex_lock_release i x) fun _ c' => (c'.mem.mlocks x).locked = false := by
    refine Ensures.modify_bind (Ensures.get_bind (Ensures.modify_bind ?_))
    refine (Partial.ensures (wakeAll_noise (h := h) (o := none) _)).mono fun _ c' hn => ?_
    rw [hn.locked]
    simp
  refine ((hq.aside.release (o := none) c₁ hm.disc.apart).and hrel).bind ?_
  rintro _ c₂ ⟨⟨hap₂, hdev₂, hcalm₂⟩, hfree₂⟩
  refine ((hq.aside.scheduler (o := none) c₂ hap₂).and (Partial.ensures (do_scheduler_noise (o := none) _))).mono ?_
  rintro _ c₃ ⟨⟨-, hdev₃, hcalm₃⟩, hn⟩
  refine ⟨hdev₃.trans (hdev₂.trans hdev₁), by rw [hn.locked]; exact hfree₂, ?_⟩
  rw [hcalm₃.resume i (by simp) (hcalm₂.alive i (by simp) hst₁), hcalm₂.resume i (by simp) hst₁, hres₁]

/-- A signal makes the first task of the queue ready, if there is one, and no other. -/
theorem do_condition_signal_ensures (ha : At h i c) : Ensures listed c (do_condition_signal i k) fun _ c' =>
    c'.dev (.condition k) = (c.dev (.condition k)).tail ∧
      ∀ j, c'.mem.status j = if (c.dev (.condition k)).head? = some j then .TASK_READY else c.mem.status j := by
  refine Ensures.seq (exec_first (q := .condition k) nofun) ?_
  cases hl : c.dev (.condition k) with
  | nil =>
    simp only [first, if_true]
    exact Ensures.modify ⟨hl, fun j => rfl⟩
  | cons j l =>
    have hj : j ∈ c.dev (.condition k) := by rw [hl]; exact List.mem_cons_self ..
    refine Ensures.seq (exec_do_unblock ha.disc.nodup (not_free hj)) (Ensures.modify ⟨?_, fun j' => ?_⟩)
    · rw [dev_move, hl, List.erase_cons_head, if_neg (by simp), List.append_nil, List.tail_cons]
    · rw [List.head?_cons]
      by_cases hjj : j = j'
      · subst hjj
        rw [if_pos rfl]
        exact status_move_self c (some .ready_queue) .TASK_READY
      · rw [if_neg (by simpa using hjj)]
        exact status_move_of_ne c (some .ready_queue) .TASK_READY (Ne.symm hjj)

theorem do_condition_broadcast_ensures (ha : At h i c) : Ensures listed c (do_condition_broadcast i k) fun _ c' =>
    c'.dev (.condition k) = [] ∧ (∀ j ∈ c.dev (.condition k), c'.mem.status j = .TASK_READY) ∧
      ∀ j, j ∉ c.dev (.condition k) → c'.mem.status j = c.mem.status j := by
  refine (wakeAll_exact (q := .condition k) ha nofun nofun).bind ?_
  rintro _ c' ⟨-, hnil, hin, hout⟩
  exact Ensures.modify ⟨hnil, hin, hout⟩

theorem do_condition_destroy_ensures (ha : At h i c) : Ensures listed c (do_condition_destroy i k) fun _ c' =>
    c'.dev (.condition k) = [] ∧ (∀ j ∈ c.dev (.condition k), c'.mem.status j = .TASK_READY) := by
  refine (wakeAll_exact (q := .condition k) ha nofun nofun).bind ?_
  rintro _ c' ⟨-, hnil, hin, -⟩
  exact Ensures.get_bind (Ensures.modify_bind (Ensures.modify ⟨hnil, hin⟩))

/-- A task that goes on to acquire a mutex gets it, or blocks again. -/
theorem do_mutex_lock_acquire_ensures (ha : At h i c) : Ensures listed c (do_mutex_lock_acquire h i x) fun _ c' =>
    c'.mem.status i ≠ .TASK_EXITED ∧
      (c'.mem.resume i = .acquire x ∨ (c'.mem.resume i = .user ∧ (c'.mem.mlocks x).locked = true ∧
      (c'.mem.mlocks x).pid = (c'.mem.pcb i).pid ∧ c'.mem.log = c.mem.log ++ [.acquired i x])) := by
  refine Ensures.get_bind (Ensures.ite (fun hl => ?_) fun _ => ?_)
  · rw [blockIn, setResume]
    refine Ensures.modify_bind (Ensures.seq (exec_do_block (q := .mutex x) ha.free (by rintro i ⟨⟩)) ?_)
    have hm := ((ha.mid h).setResume ha.free (r := .acquire x) (by rintro k ⟨⟩)).block (q := .mutex x)
      ha.here ha.running (by simp) hl
    refine (do_scheduler_spares (q := .condition x) (o := none) (by simp) (by simp) _ hm.disc.apart).mono ?_
    rintro _ c' ⟨-, -, hcalm⟩
    have hst :
      (St.move ⟨{ c.mem with resume := Function.update c.mem.resume i (.acquire x) },
        c.dev⟩ i (some (.mutex x))
        .TASK_BLOCKED).mem.status i ≠ .TASK_EXITED := by
      rw [status_move_self]
      decide
    exact ⟨hcalm.alive i (by simp) hst, Or.inl ((hcalm.resume i (by simp) hst).trans (Function.update_self ..))⟩
  · refine Ensures.modify_bind
      (Ensures.modify_bind (Ensures.modify ⟨?_, Or.inr ⟨Function.update_self .., ?_, ?_, rfl⟩⟩))
    · have hr : c.mem.status i = .TASK_RUNNING := ha.running
      show c.mem.status i ≠ _
      rw [hr]
      decide
    · simp
    · simp

/-! ### The book -/

/-- The tasks that are still asleep after a step. -/
theorem asleep_observe {m : Kernel} {caller : Option Waiting}
    {loud : Bool} (hl : ∀ w ∈ asleep l, m.resume w.task ≠ .user)
    (hc : ∀ w, caller = some w → w.woken = false ∧ m.resume w.task ≠ .user) :
    (asleep (observe l caller loud m)).map task =
      ((asleep l).map task).filter (fun j => m.status j = .TASK_BLOCKED) ++ caller.toList.map task := by
  have hcaller : asleep (caller.toList.filter fun w => m.resume w.task != .user) = caller.toList := by
    cases caller with
    | none => rfl
    | some w =>
      obtain ⟨h1, h2⟩ := hc w rfl
      simp [asleep, h1, h2]
  have hold : ∀ l : List Waiting, (∀ w ∈ asleep l, m.resume w.task ≠ .user) →
      (asleep ((l.map (·.after loud m)).filter fun w => m.resume w.task != .user)).map task =
        ((asleep l).map task).filter fun j => m.status j = .TASK_BLOCKED := by
    intro l hl
    induction l with
    | nil => rfl
    | cons w l ih =>
      have ih' := ih fun w' hw' => hl w' (by
        simp only [asleep, List.mem_filter, List.mem_cons] at hw' ⊢
        exact ⟨Or.inr hw'.1, hw'.2⟩)
      cases hw : w.woken with
      | true =>
        simp only [asleep, List.map_cons, List.filter_cons, hw, Bool.not_true, Bool.false_eq_true, if_false]
        split
        · next hr =>
          rw [List.filter_cons_of_neg (by simp [after, hw])]
          exact ih'
        · exact ih'
      | false =>
        have hr : m.resume w.task ≠ .user := hl w (by simp [asleep, hw])
        simp only [asleep, List.map_cons, List.filter_cons, hw, Bool.not_false, if_true, after, bne_iff_ne, ne_eq, hr,
          not_false_eq_true, Bool.false_or]
        by_cases hb : m.status w.task = .TASK_BLOCKED
        · simp only [hb, bne_self_eq_false, Bool.not_false, if_true, decide_true, List.map_cons]
          rw [List.cons.injEq]
          exact ⟨rfl, ih'⟩
        · have hb' : (m.status w.task != .TASK_BLOCKED) = true := by simpa using hb
          simp only [hb', Bool.not_true, Bool.false_eq_true, if_false, hb, decide_false]
          exact ih'
  rw [observe, List.filter_append]
  show (asleep (_ ++ _)).map task = _
  rw [asleep, List.filter_append, List.map_append]
  exact congrArg₂ _ (hold l hl) (congrArg _ hcaller)

/-- The machine and the book of condition `k` go together; `ql` is the queue. -/
structure Booked (l : List Waiting) (m : Kernel) (ql : List Slot) : Prop where
  queue : ql = (asleep l).map task
  resume : ∀ w ∈ l, m.resume w.task = .acquire w.mutex
  alive : ∀ w ∈ l, m.status w.task ≠ .TASK_EXITED
  heard : ∀ w ∈ l, w.woken = true → w.heard = true

theorem Booked.mem_queue {m : Kernel} {ql : List Slot} (hB : Booked l m ql)
    {w : Waiting} (hw : w ∈ l) (hn : w.woken = false) :
    w.task ∈ ql := by
  rw [hB.queue]
  exact List.mem_map_of_mem (by simp [asleep, hw, hn])

theorem mem_of_asleep {w : Waiting} (hw : w ∈ asleep l) : w ∈ l ∧ w.woken = false := by
  simpa [asleep] using hw

/-! ### One step -/

section Step

variable {Q Q' : Queues} (hinv : Inv ⟨s.mem, Q⟩) (hinv' : Inv ⟨s'.mem, Q'⟩)
    (hp : NoKill s.mem a) (hen : Enabled s.mem h a)
  (he : exec listed (act h a) ⟨s.mem, Q⟩ = some ((), ⟨s'.mem, Q'⟩))

include hinv he hp in
/-- Other tasks go on where they would have gone on before. -/
theorem resume_of_step (hj : s.mem.current_running h ≠ some j) (hs : s.mem.status j ≠ .TASK_EXITED) :
    s'.mem.resume j = s.mem.resume j ∧ s'.mem.status j ≠ .TASK_EXITED := by
  have hspares : ∃ q : Queue, q.Meets ∧ a.Spares q := by
    cases a with
    | timer => exact ⟨.condition ⟨0, by decide⟩, trivial, trivial⟩
    | resume msg => exact ⟨.condition ⟨0, by decide⟩, trivial, trivial⟩
    | call call =>
      cases call with
      | do_kill pid => exact absurd rfl (hp.2 pid)
      | do_barrier_wait k' => exact ⟨.condition ⟨0, by decide⟩, trivial, nofun⟩
      | do_barrier_destroy k' => exact ⟨.condition ⟨0, by decide⟩, trivial, nofun⟩
      | do_condition_wait k' m => exact ⟨.barrier ⟨0, by decide⟩, trivial, nofun⟩
      | do_condition_signal k' => exact ⟨.barrier ⟨0, by decide⟩, trivial, nofun⟩
      | do_condition_broadcast k' => exact ⟨.barrier ⟨0, by decide⟩, trivial, nofun⟩
      | do_condition_destroy k' => exact ⟨.barrier ⟨0, by decide⟩, trivial, nofun⟩
      | _ => exact ⟨.condition ⟨0, by decide⟩, trivial, trivial⟩
  obtain ⟨q, hq, ha⟩ := hspares
  obtain ⟨-, -, hcalm⟩ := act_spares hq ha hinv.disc.apart _ _ he
  exact ⟨hcalm.resume j hj hs, hcalm.alive j hj hs⟩

include hinv hen he in
/-- A task that runs in the kernel, in the loop of `do_mutex_lock_acquire`. -/
theorem acquire_of_step (hi : s.mem.current_running h = some i) (hr : s.mem.resume i = .acquire x) :
    s'.mem.status i ≠ .TASK_EXITED ∧
    (s'.mem.resume i = .acquire x ∨ (s'.mem.resume i = .user ∧ (s'.mem.mlocks x).locked = true ∧
      (s'.mem.mlocks x).pid = (s'.mem.pcb i).pid ∧ s'.mem.log = s.mem.log ++ [.acquired i x])) := by
  have hin : InKernel s.mem h := ⟨i, hi, by rw [hr]; nofun⟩
  cases a with
  | timer => exact absurd hin hen.2
  | call call => exact absurd hin hen.2
  | resume msg =>
    have ha : At h i ⟨s.mem, Q⟩ := ⟨hinv, hi⟩
    have hx : Ensures listed ⟨s.mem, Q⟩ (act h (.resume msg)) _ := Ensures.get_bind (by
      simp only [hi, hr]
      exact do_mutex_lock_acquire_ensures ha)
    exact hx _ _ he

include hinv hinv' hp he in
/-- What a step does to the queue: it keeps the tasks that stay blocked, and a new call is appended. -/
theorem queue_of_step : Q' (.condition k) = (Q (.condition k)).filter (fun j => s'.mem.status j = .TASK_BLOCKED) ++
    (conditionCaller k s.mem h a).toList.map task := by
  have hblocked : ∀ j ∈ Q' (.condition k), s'.mem.status j = .TASK_BLOCKED :=
    fun j hj => hinv'.disc.blocked_iff.mpr ⟨.condition k, nofun, hj⟩
  have hkeep : ∀ l : List Slot, (∀ j ∈ l, j ∈ Q' (.condition k)) →
      l.filter (fun j => s'.mem.status j = .TASK_BLOCKED) = l :=
    fun l hl => List.filter_eq_self.mpr fun j hj => decide_eq_true (hblocked j (hl j hj))
  have hgone : ∀ l : List Slot, (∀ j ∈ l, s'.mem.status j = .TASK_READY) →
      l.filter (fun j => s'.mem.status j = .TASK_BLOCKED) = [] := by
    intro l hl
    refine List.filter_eq_nil_iff.mpr fun j hj => ?_
    rw [hl j hj]
    decide
  have hother : a.Spares (.condition k) → conditionCaller k s.mem h a = none →
      Q' (.condition k) = (Q (.condition k)).filter (fun j => s'.mem.status j = .TASK_BLOCKED) ++
        (conditionCaller k s.mem h a).toList.map task := by
    intro ha hc
    obtain ⟨-, hdev, -⟩ := act_spares (q := .condition k) trivial ha hinv.disc.apart _ _ he
    have hdev : Q' (.condition k) = Q (.condition k) := hdev
    rw [hc, Option.toList_none, List.map_nil, List.append_nil, hkeep _ fun j hj => by rw [hdev]; exact hj, hdev]
  cases a with
  | timer => exact hother trivial rfl
  | resume msg => exact hother trivial rfl
  | call call =>
    cases call with
    | do_kill pid => exact absurd rfl (hp.2 pid)
    | do_condition_wait k' x =>
      by_cases hk : k' = k
      · subst hk
        obtain ⟨i, hi⟩ : ∃ i, s.mem.current_running h = some i := exists_task he fun _ _ _ => ⟨nofun, nofun, nofun⟩
        have ha : At h i ⟨s.mem, Q⟩ := ⟨hinv, hi⟩
        obtain ⟨hdev, -⟩ := Ensures.act_call ha (e := .do_condition_wait k' x)
          (do_condition_wait_ensures ha hp.1) _ _ he
        have hdev : Q' (.condition k') = Q (.condition k') ++ [i] := hdev
        rw [hkeep _ fun j hj => by rw [hdev]; exact List.mem_append_left _ hj, hdev]
        simp [conditionCaller, hi]
      · exact hother (by rintro ⟨⟩; exact hk rfl) (if_neg hk)
    | do_condition_signal k' =>
      by_cases hk : k' = k
      · subst hk
        obtain ⟨i, hi⟩ : ∃ i, s.mem.current_running h = some i := exists_task he fun _ _ _ => ⟨nofun, nofun, nofun⟩
        have ha : At h i ⟨s.mem, Q⟩ := ⟨hinv, hi⟩
        obtain ⟨hdev, hst⟩ := Ensures.act_call ha (e := .do_condition_signal k') (do_condition_signal_ensures ha) _ _ he
        have hdev : Q' (.condition k') = (Q (.condition k')).tail := hdev
        have hst : ∀ j, s'.mem.status j = if (Q (.condition k')).head? =
          some j then .TASK_READY else s.mem.status j := hst
        simp only [conditionCaller, Option.toList_none, List.map_nil, List.append_nil]
        cases hl : Q (.condition k') with
        | nil => rw [hdev, hl]; rfl
        | cons j l =>
          rw [hl, List.tail_cons] at hdev
          have hj : s'.mem.status j = .TASK_READY := by rw [hst, hl, List.head?_cons, if_pos rfl]
          rw [List.filter_cons_of_neg (by rw [hj]; decide), hkeep l fun j hj => by rw [hdev]; exact hj, hdev]
      · exact hother (by rintro ⟨⟩; exact hk rfl) rfl
    | do_condition_broadcast k' =>
      by_cases hk : k' = k
      · subst hk
        obtain ⟨i, hi⟩ : ∃ i, s.mem.current_running h = some i := exists_task he fun _ _ _ => ⟨nofun, nofun, nofun⟩
        have ha : At h i ⟨s.mem, Q⟩ := ⟨hinv, hi⟩
        obtain ⟨hdev, hst, -⟩ := Ensures.act_call ha (e := .do_condition_broadcast k')
          (do_condition_broadcast_ensures ha) _ _ he
        rw [hgone _ hst]
        exact hdev
      · exact hother (by rintro ⟨⟩; exact hk rfl) rfl
    | do_condition_destroy k' =>
      by_cases hk : k' = k
      · subst hk
        obtain ⟨i, hi⟩ : ∃ i, s.mem.current_running h = some i := exists_task he fun _ _ _ => ⟨nofun, nofun, nofun⟩
        have ha : At h i ⟨s.mem, Q⟩ := ⟨hinv, hi⟩
        obtain ⟨hdev, hst⟩ := Ensures.act_call ha (e := .do_condition_destroy k')
          (do_condition_destroy_ensures ha) _ _ he
        rw [hgone _ hst]
        exact hdev
      · exact hother (by rintro ⟨⟩; exact hk rfl) rfl
    | do_barrier_wait k' => exact hother nofun rfl
    | do_barrier_destroy k' => exact hother nofun rfl
    | _ => exact hother trivial rfl

include hinv hp he in
/-- A call is made by the running task, which is in the loop of `do_mutex_lock_acquire` afterwards. -/
theorem caller_of_step {w : Waiting} (hw : conditionCaller k s.mem h a = some w) :
    a = .call (.do_condition_wait k w.mutex) ∧
    s.mem.current_running h = some w.task ∧ w.woken = false ∧ w.heard = false ∧
      s'.mem.resume w.task = .acquire w.mutex ∧
      (s'.mem.mlocks w.mutex).locked = false ∧ w.task ∈ Q' (.condition k) := by
  unfold conditionCaller at hw
  split at hw
  · next k' x =>
    rw [Option.ite_none_right_eq_some, Option.map_eq_some_iff] at hw
    obtain ⟨rfl, i, hi, rfl⟩ := hw
    have ha : At h i ⟨s.mem, Q⟩ := ⟨hinv, hi⟩
    obtain ⟨hdev, hfree, hres⟩ := Ensures.act_call ha (e := .do_condition_wait k' x)
      (do_condition_wait_ensures ha hp.1) _ _ he
    have hdev : Q' (.condition k') = Q (.condition k') ++ [i] := hdev
    exact ⟨rfl, hi, rfl, rfl, hres, hfree, by rw [hdev]; simp⟩
  · cases hw

variable (hB : Booked l s.mem (Q (.condition k)))

include hinv hB in
/-- A task that is asleep does not run. -/
theorem Booked.not_running {w : Waiting} (hw : w ∈ l) (hn : w.woken = false) :
    s.mem.current_running h ≠ some w.task := by
  intro hi
  have hb : s.mem.status w.task = .TASK_BLOCKED := hinv.disc.blocked_iff.mpr ⟨.condition k, nofun, hB.mem_queue hw hn⟩
  rw [hinv.cur h w.task hi] at hb
  cases hb

include hinv hp hen he hB in
/-- A call under way is still under way after the step, or it has returned with the mutex. -/
theorem Booked.goesOn {w : Waiting} (hw : w ∈ l) :
    s'.mem.status w.task ≠ .TASK_EXITED ∧ (s'.mem.resume w.task = .acquire w.mutex ∨
    (w.woken = true ∧ s'.mem.resume w.task = .user ∧ (s'.mem.mlocks w.mutex).locked = true ∧
      (s'.mem.mlocks w.mutex).pid = (s'.mem.pcb w.task).pid ∧
      s'.mem.log = s.mem.log ++ [.acquired w.task w.mutex])) := by
  by_cases hi : s.mem.current_running h = some w.task
  · obtain ⟨hst, hres⟩ := acquire_of_step hinv hen he hi (hB.resume w hw)
    have hwoken : w.woken = true := by
      by_contra hn
      exact hB.not_running hinv hw (Bool.eq_false_iff.mpr hn) hi
    exact ⟨hst, hres.imp_right fun hr => ⟨hwoken, hr⟩⟩
  · obtain ⟨hres, hst⟩ := resume_of_step hinv hp he hi (hB.alive w hw)
    exact ⟨hst, Or.inl (hres.trans (hB.resume w hw))⟩

include hinv hp hen he hB in
theorem Booked.asleep_resume {w : Waiting} (hw : w ∈ asleep l) : s'.mem.resume w.task ≠ .user := by
  obtain ⟨hw, hn⟩ := mem_of_asleep hw
  rcases (hB.goesOn hinv hp hen he hw).2 with hr | ⟨hwoken, -⟩
  · rw [hr]
    nofun
  · rw [hn] at hwoken
    cases hwoken

include hinv hinv' hp he hB in
/-- Only a signal, a broadcast or a destroy wakes a task. -/
theorem Booked.wakes {w : Waiting} (hw : w ∈ l) (hn : w.woken = false) (hs : s'.mem.status w.task ≠ .TASK_BLOCKED) :
    wakesCondition k a = true := by
  by_contra hq
  have hspares : a.Spares (.condition k) ∨ ∃ x, a = .call (.do_condition_wait k x) := by
    cases a with
    | timer => exact Or.inl trivial
    | resume msg => exact Or.inl trivial
    | call call =>
      cases call with
      | do_kill pid => exact absurd rfl (hp.2 pid)
      | do_barrier_wait k' => exact Or.inl nofun
      | do_barrier_destroy k' => exact Or.inl nofun
      | do_condition_wait k' x =>
        by_cases hk : k' = k
        · subst hk
          exact Or.inr ⟨x, rfl⟩
        · exact Or.inl (by rintro ⟨⟩; exact hk rfl)
      | do_condition_signal k' => exact Or.inl (by rintro ⟨⟩; exact hq (decide_eq_true rfl))
      | do_condition_broadcast k' => exact Or.inl (by rintro ⟨⟩; exact hq (decide_eq_true rfl))
      | do_condition_destroy k' => exact Or.inl (by rintro ⟨⟩; exact hq (decide_eq_true rfl))
      | _ => exact Or.inl trivial
  have hsub : ∀ j ∈ Q (.condition k), j ∈ Q' (.condition k) := by
    rcases hspares with ha | ⟨x, rfl⟩
    · obtain ⟨-, hdev, -⟩ := act_spares (q := .condition k) trivial ha hinv.disc.apart _ _ he
      have hdev : Q' (.condition k) = Q (.condition k) := hdev
      rw [hdev]
      exact fun j hj => hj
    · obtain ⟨i, hi⟩ : ∃ i, s.mem.current_running h = some i := exists_task he fun _ _ _ => ⟨nofun, nofun, nofun⟩
      have ha : At h i ⟨s.mem, Q⟩ := ⟨hinv, hi⟩
      obtain ⟨hdev, -⟩ := Ensures.act_call ha (e := .do_condition_wait k x) (do_condition_wait_ensures ha hp.1) _ _ he
      have hdev : Q' (.condition k) = Q (.condition k) ++ [i] := hdev
      rw [hdev]
      exact fun j hj => List.mem_append_left _ hj
  exact hs (hinv'.disc.blocked_iff.mpr ⟨.condition k, nofun, hsub _ (hB.mem_queue hw hn)⟩)

include hinv hinv' hp hen he hB in
/-- The book stays true. -/
theorem Booked.step : Booked (bookAfter k l s h a s') s'.mem (Q' (.condition k)) := by
  have hmem : ∀ w ∈ bookAfter k l s h a s', s'.mem.resume w.task ≠ .user ∧
      ((∃ v ∈ l, w = v.after (wakesCondition k a) s'.mem) ∨ conditionCaller k s.mem h a = some w) := by
    intro w hw
    simp only [bookAfter, observe, List.mem_filter, List.mem_append,
      List.mem_map, Option.mem_toList, bne_iff_ne, ne_eq] at hw
    refine ⟨hw.2, hw.1.imp_left ?_⟩
    rintro ⟨v, hv, e⟩
    exact ⟨v, hv, e.symm⟩
  refine ⟨?_, fun w hw => ?_, fun w hw => ?_, fun w hw hwoken => ?_⟩
  · rw [asleep_observe (fun w hw => hB.asleep_resume hinv hp hen he hw), ← hB.queue]
    · exact queue_of_step hinv hinv' hp he
    · intro w hw
      obtain ⟨-, -, hn, -, hres, -⟩ := caller_of_step hinv hp he hw
      exact ⟨hn, by rw [hres]; nofun⟩
  · obtain ⟨hu, ⟨v, hv, rfl⟩ | hc⟩ := hmem w hw
    · exact (hB.goesOn hinv hp hen he hv).2.resolve_right fun hr => hu hr.2.1
    · exact (caller_of_step hinv hp he hc).2.2.2.2.1
  · obtain ⟨-, ⟨v, hv, rfl⟩ | hc⟩ := hmem w hw
    · exact (hB.goesOn hinv hp hen he hv).1
    · have hin := (caller_of_step hinv hp he hc).2.2.2.2.2.2
      have hb : s'.mem.status w.task = .TASK_BLOCKED := hinv'.disc.blocked_iff.mpr ⟨.condition k, nofun, hin⟩
      rw [hb]
      decide
  · obtain ⟨-, ⟨v, hv, rfl⟩ | hc⟩ := hmem w hw
    · simp only [after, Bool.or_eq_true, bne_iff_ne, ne_eq] at hwoken ⊢
      cases hn : v.woken with
      | true => exact Or.inl (hB.heard v hv hn)
      | false =>
        rw [hn] at hwoken
        exact Or.inr (hB.wakes hinv hinv' hp he hv hn (hwoken.resolve_left nofun))
    · rw [(caller_of_step hinv hp he hc).2.2.1] at hwoken
      cases hwoken

end Step

/-- The machine and the book. -/
theorem ConditionRun.booked (hr : ConditionRun k l s) :
    ∃ Q : Queues, Repr Q s.dev ∧ Inv ⟨s.mem, Q⟩ ∧ Booked l s.mem (Q (.condition k)) := by
  induction hr with
  | boot hb =>
    obtain ⟨Q, hrep, hinv⟩ := hb.sound
    refine ⟨Q, hrep, hinv, ?_, nofun, nofun, nofun⟩
    refine List.eq_nil_iff_forall_not_mem.mpr fun j hj => ?_
    have hact := hinv.waits (.condition k) j hj
    rw [Reason, hb.condition] at hact
    cases hact
  | step hr hp hs ih =>
    obtain ⟨Q, hrep, hinv, hB⟩ := ih
    obtain ⟨Q', hrep', hinv', he⟩ := hs.listed hrep hinv hp.1 (killOk_of_ne hp.2)
    exact ⟨Q', hrep', hinv', hB.step hinv hinv' hp hs.1 he⟩

/-- What a step does to the calls on condition `k`, where `l` is the book before the step. -/
structure ConditionStep (k : Handle) (l : List Waiting)
    (s : Machine) (h : Hart) (a : Action) (s' : Machine) : Prop where
  /-- The queue holds the calls that have not been woken, the oldest first. -/
  queue : s.dev.Ring (.head (.condition k)) ((asleep l).map fun w => .task w.task)
  /-- One step enqueues a task and releases its mutex. -/
  wait : ∀ i x, s.mem.current_running h = some i → a = .call (.do_condition_wait k x) →
    bookAfter k l s h a s' = l ++ [⟨i, x, false, false⟩] ∧ (s'.mem.mlocks x).locked = false
  /-- A signal makes the task ready that waits longest, and no other. -/
  signal : ∀ w ws, asleep l = w :: ws → a = .call (.do_condition_signal k) →
    s'.mem.status w.task = .TASK_READY ∧ ∀ j, j ≠ w.task → s'.mem.status j = s.mem.status j
  /-- A broadcast makes all waiting tasks ready, and no other. -/
  broadcast : a = .call (.do_condition_broadcast k) → (∀ w ∈ asleep l, s'.mem.status w.task = .TASK_READY) ∧
    ∀ j, (∀ w ∈ asleep l, w.task ≠ j) → s'.mem.status j = s.mem.status j
  /-- Nothing else wakes a waiting task. -/
  woken : ∀ w ∈ asleep l, s'.mem.status w.task ≠ .TASK_BLOCKED → wakesCondition k a = true
  /-- A call returns after it has been woken, by a step since it was made, and with the mutex. -/
  returned : ∀ w ∈ l, s'.mem.resume w.task = .user →
    w.woken = true ∧ w.heard = true ∧ (s'.mem.mlocks w.mutex).locked = true ∧
    (s'.mem.mlocks w.mutex).pid = (s'.mem.pcb w.task).pid ∧ holder w.mutex s'.mem.log = some w.task

/-- Condition variables: in every run, every step treats the waiting tasks as it should. -/
theorem conditionStep_of_run (hr : ConditionRun k l s) (hp : NoKill s.mem a) (hs : Step h a s s') :
    ConditionStep k l s h a s' := by
  obtain ⟨Q, hrep, hinv, hB⟩ := hr.booked
  obtain ⟨Q', hrep', hinv', he⟩ := hs.listed hrep hinv hp.1 (killOk_of_ne hp.2)
  refine ⟨?_, ?_, ?_, ?_, ?_, fun w hw hu => ?_⟩
  · have hring := hrep.ring (.condition k) nofun
    rwa [hB.queue, List.map_map] at hring
  · rintro i x hi rfl
    have hcaller : conditionCaller k s.mem h (.call (.do_condition_wait k x)) = some ⟨i, x, false, false⟩ := by
      simp [conditionCaller, hi]
    obtain ⟨-, -, -, -, hres, hfree, -⟩ := caller_of_step hinv hp he hcaller
    refine ⟨?_, hfree⟩
    have hquiet : wakesCondition k (.call (.do_condition_wait k x)) = false := rfl
    have hsame : ∀ w ∈ l, w.after false s'.mem = w := by
      intro w hw
      obtain ⟨i, y, n, e⟩ := w
      cases n with
      | true => simp [after]
      | false =>
        have hb : s'.mem.status i = .TASK_BLOCKED := by
          by_contra hb
          have := hB.wakes hinv hinv' hp he hw rfl hb
          rw [hquiet] at this
          cases this
        simp [after, hb]
    have hstay : ∀ w ∈ l, s'.mem.resume w.task ≠ .user := by
      intro w hw
      have hne : s.mem.current_running h ≠ some w.task := fun e =>
        hs.1.2 ⟨w.task, e, by rw [hB.resume w hw]; nofun⟩
      rw [(resume_of_step hinv hp he hne (hB.alive w hw)).1, hB.resume w hw]
      nofun
    rw [bookAfter, observe, hcaller, List.filter_append, hquiet, List.map_congr_left hsame, List.map_id']
    rw [List.filter_eq_self.mpr fun w hw => by simpa using hstay w hw]
    have hres : s'.mem.resume i = .acquire x := hres
    simp [hres]
  · rintro w ws hl rfl
    obtain ⟨i, hi⟩ : ∃ i, s.mem.current_running h = some i := exists_task he fun _ _ _ => ⟨nofun, nofun, nofun⟩
    have ha : At h i ⟨s.mem, Q⟩ := ⟨hinv, hi⟩
    obtain ⟨-, hst⟩ := Ensures.act_call ha (e := .do_condition_signal k) (do_condition_signal_ensures ha) _ _ he
    have hst : ∀ j, s'.mem.status j = if (Q (.condition k)).head? = some j then .TASK_READY else s.mem.status j := hst
    rw [hB.queue, hl, List.map_cons, List.head?_cons] at hst
    refine ⟨by rw [hst, if_pos rfl], fun j hj => ?_⟩
    rw [hst, if_neg]
    exact fun e => hj (Option.some.inj e).symm
  · rintro rfl
    obtain ⟨i, hi⟩ : ∃ i, s.mem.current_running h = some i := exists_task he fun _ _ _ => ⟨nofun, nofun, nofun⟩
    have ha : At h i ⟨s.mem, Q⟩ := ⟨hinv, hi⟩
    obtain ⟨-, hin, hout⟩ := Ensures.act_call ha (e := .do_condition_broadcast k)
      (do_condition_broadcast_ensures ha) _ _ he
    refine ⟨fun w hw => hin _ (hB.mem_queue (mem_of_asleep hw).1 (mem_of_asleep hw).2),
      fun j hj => hout j fun hjQ => ?_⟩
    have hjQ : j ∈ Q (.condition k) := hjQ
    rw [hB.queue, List.mem_map] at hjQ
    obtain ⟨w, hw, e⟩ := hjQ
    exact hj w hw e
  · exact fun w hw => hB.wakes hinv hinv' hp he (mem_of_asleep hw).1 (mem_of_asleep hw).2
  · rcases (hB.goesOn hinv hp hs.1 he hw).2 with hr | ⟨hwoken, -, hlocked, hpid, hlog⟩
    · rw [hr] at hu
      cases hu
    · refine ⟨hwoken, hB.heard w hw hwoken, hlocked, hpid, ?_⟩
      rw [hlog, holder_concat, hold, if_pos rfl]

/-- The book and the machine after the given steps, if they can all be taken. -/
def conditionSteps (k : Handle) : List (Hart × Action) → List Waiting × Machine → Option (List Waiting × Machine)
  | [], r => some r
  | (h, a) :: acts, (l, s) =>
    if Enabled s.mem h a then (exec pointers (act h a) s).bind fun r =>
      conditionSteps k acts (bookAfter k l s h a r.2, r.2) else none

theorem ConditionRun.steps {r : List Waiting × Machine} (hr : ConditionRun k l s) (acts : List (Hart × Action))
    (hP : ∀ m, ∀ x ∈ acts, NoKill m x.2) (he : conditionSteps k acts (l, s) = some r) : ConditionRun k r.1 r.2 := by
  induction acts generalizing l s with
  | nil =>
    obtain rfl := Option.some.inj he
    exact hr
  | cons x acts ih =>
    obtain ⟨h, a⟩ := x
    rw [conditionSteps, Option.ite_none_right_eq_some, Option.bind_eq_some_iff] at he
    obtain ⟨hen, ⟨⟨⟩, s₁⟩, hex, hl⟩ := he
    have hr₁ := hr.step (hP s.mem (h, a) (List.mem_cons_self ..)) ⟨hen, hex⟩
    exact ih hr₁ (fun m x hx => hP m x (List.mem_cons_of_mem _ hx)) hl

/-- Two processes are started; the first initialises a condition and a mutex, and acquires the mutex. -/
def prepared : List (Hart × Action) :=
  [(0, .call (.do_taskset_exec ⟨[], length_nil_lt⟩ 3)),
    (0, .call (.do_taskset_exec ⟨[], length_nil_lt⟩ 3)), (0, .timer),
    (0, .call (.do_condition_init 0)), (0, .call (.do_mutex_lock_init 0)),
    (0, .call (.do_mutex_lock_acquire ⟨0, lock_num_pos⟩))]

/-- The first process waits and the second signals: the first becomes ready. -/
theorem conditionStep_two : ∃ (w : Waiting) (s s' : Machine),
    ConditionStep ⟨0, by decide⟩ [w] s 0 (.call (.do_condition_signal ⟨0, by decide⟩)) s' ∧
    w.task = ⟨0, by decide⟩ ∧ s'.mem.status ⟨0, by decide⟩ = .TASK_READY := by
  have hrun : (conditionSteps ⟨0, by decide⟩ prepared ([], .start)).bind (fun r =>
      (conditionSteps ⟨0, by decide⟩ [(0, .call (.do_condition_wait ⟨0, by decide⟩ ⟨0, by decide⟩))] r).bind fun r₁ =>
        (exec pointers (act 0 (.call (.do_condition_signal ⟨0, by decide⟩))) r₁.2).map fun _ =>
          decide ((r.2.mem.condition ⟨0, by decide⟩).active = true ∧
            Enabled r₁.2.mem 0 (.call (.do_condition_signal ⟨0, by decide⟩)) ∧
            r₁.1.map (fun w => (w.task, w.woken)) = [(⟨0, by decide⟩, false)])) = some true := by
    decide +kernel
  obtain ⟨⟨l, s⟩, hs, hrun⟩ := Option.bind_eq_some_iff.mp hrun
  obtain ⟨⟨l₁, s₁⟩, hs₁, hrun⟩ := Option.bind_eq_some_iff.mp hrun
  obtain ⟨⟨⟨⟩, s'⟩, hs', hrun⟩ := Option.map_eq_some_iff.mp hrun
  obtain ⟨hact, hen, hl₁⟩ := of_decide_eq_true hrun
  have hr : ConditionRun ⟨0, by decide⟩ l s := by
    refine (ConditionRun.boot boot_start).steps prepared ?_ hs
    intro m x hx
    simp only [prepared, List.mem_cons, List.not_mem_nil, or_false] at hx
    rcases hx with rfl | rfl | rfl | rfl | rfl | rfl
    all_goals exact ⟨trivial, nofun⟩
  have hr₁ : ConditionRun ⟨0, by decide⟩ l₁ s₁ := by
    rw [conditionSteps, Option.ite_none_right_eq_some, Option.bind_eq_some_iff] at hs₁
    obtain ⟨hen₁, ⟨⟨⟩, s₂⟩, hex, hl⟩ := hs₁
    obtain ⟨rfl, rfl⟩ := Prod.mk.inj (Option.some.inj hl)
    exact hr.step ⟨hact, nofun⟩ ⟨hen₁, hex⟩
  obtain ⟨w, hw, hl₁⟩ := List.map_eq_singleton_iff.mp hl₁
  obtain ⟨htask, hn⟩ := Prod.mk.inj hl₁
  subst hw
  have hstep := conditionStep_of_run hr₁ (a := .call (.do_condition_signal ⟨0, by decide⟩)) ⟨trivial, nofun⟩ ⟨hen, hs'⟩
  refine ⟨w, s₁, s', hstep, htask, ?_⟩
  rw [← htask]
  exact (hstep.signal w [] (by simp [asleep, hn]) rfl).1

end OsLab.Sched
