import Mathlib
import OsLab.Sched.Stays

/-!
# Sleeping

`check_sleeping` walks `sleep_queue` and moves the tasks whose time has come to the tail of `ready_queue`, from the list
that it is walking to another, through the same pointers. Whatever the queues and the clock, it takes out exactly
those tasks and changes nothing else (`check_sleeping_exact`).

So a task that has called `do_sleep` stays in the queue until an answer of the clock is its wakeup time or
later, or until it is killed (`Asleep`), and it is not dispatched before (`Sleeps.rested`). This needs that
no slot is shared: once a process has been killed that the other hart is running, its slot may stand in two
queues, and whoever is behind it in the one is reached through the other (`sleep_queue_fails`).
-/

namespace OsLab.Sched

open Lib ProgM

variable {c c' : St} {m : Kernel} {Q : Queues} {h : Hart}
    {i j x : Slot} {q : Queue} {now w : UInt64} {l l₁ l₂ : List Slot}

/-! ### The tasks whose time has come -/

/-- The wakeup time of task `i` has come. -/
def Due (m : Kernel) (now : UInt64) (i : Slot) : Bool := (m.pcb i).wakeup_time ≤ now

/-- The due tasks of `l` become `TASK_READY`. -/
def Kernel.wake (m : Kernel) (now : UInt64) (l : List Slot) : Kernel :=
  { m with pcb := fun i => if i ∈ l ∧ Due m now i then { m.pcb i with status := .TASK_READY } else m.pcb i }

/-- The due tasks of `l` leave `sleep_queue` and join `ready_queue`. -/
def Queues.wake (Q : Queues) (m : Kernel) (now : UInt64) (l : List Slot) : Queues :=
  { Q with
    tasks := fun q =>
      if q = .sleep_queue then (Q q).filter fun i => ¬ (i ∈ l ∧ Due m now i)
      else if q = .ready_queue then Q q ++ l.filter (Due m now)
      else Q q }

/-- The due tasks of `l` are woken. -/
def St.wake (c : St) (now : UInt64) (l : List Slot) : St := ⟨c.mem.wake now l, c.dev.wake c.mem now l⟩

theorem wake_nil (c : St) (now : UInt64) : c.wake now [] = c := by
  have hdev : c.dev.wake c.mem now [] = c.dev := by
    rw [Queues.wake]
    congr 1
    funext q
    simp
  rw [St.wake, hdev]
  simp [Kernel.wake]

/-- A task that is not due is passed. -/
theorem wake_cons_of_not (hi : Due c.mem now i = false) : c.wake now (i :: l) = c.wake now l := by
  have hmem : ∀ j, (j ∈ i :: l ∧ Due c.mem now j = true) ↔ (j ∈ l ∧ Due c.mem now j = true) := by
    intro j
    refine ⟨fun ⟨hj, hd⟩ => ⟨(List.mem_cons.mp hj).resolve_left ?_, hd⟩,
      fun ⟨hj, hd⟩ => ⟨List.mem_cons_of_mem i hj, hd⟩⟩
    rintro rfl
    rw [hi] at hd
    cases hd
  have hready : (i :: l).filter (Due c.mem now) = l.filter (Due c.mem now) :=
    List.filter_cons_of_neg (by rw [hi]; decide)
  simp only [St.wake, Kernel.wake, Queues.wake, hmem, hready]

/-- A task that is due is moved first. -/
theorem wake_cons_of_due (hn : ∀ q, (c.dev q).Nodup) (ha : c.dev.Apart) (hi : i ∈ c.dev .sleep_queue) (hil : i ∉ l)
    (hd : Due c.mem now i = true) : c.wake now (i :: l) = (c.move i (some .ready_queue) .TASK_READY).wake now l := by
  have hdue : ∀ j, Due (c.mem.setStatus i .TASK_READY) now j = Due c.mem now j := by
    intro j
    by_cases hj : j = i
    · subst hj
      simp [Due, Kernel.setStatus]
    · simp [Due, Kernel.setStatus, hj]
  have hother : ∀ q, q ≠ .sleep_queue → i ∉ c.dev q := fun q hq hiq => hq (ha i q _ hiq hi)
  have hmem : c.mem.wake now (i :: l) = (c.mem.setStatus i .TASK_READY).wake now l := by
    simp only [Kernel.wake, hdue]
    congr 1
    funext j
    by_cases hj : j = i
    · subst hj
      simp [hil, hd, Kernel.setStatus]
    · simp [hj, Kernel.setStatus]
  have hdev : c.dev.wake c.mem now (i :: l) =
      (c.dev.move i (some .ready_queue)).wake (c.mem.setStatus i .TASK_READY) now l := by
    simp only [Queues.wake, hdue]
    congr 1
    funext q
    by_cases hsleep : q = .sleep_queue
    · subst hsleep
      have hmove : (c.dev.move i (some .ready_queue)) .sleep_queue = (c.dev .sleep_queue).filter (· != i) := by
        rw [← (hn _).erase_eq_filter]
        exact List.append_nil _
      rw [if_pos rfl, if_pos rfl, hmove, List.filter_filter]
      refine List.filter_congr fun j _ => ?_
      by_cases hj : j = i
      · subst hj
        simp [hd]
      · simp [hj]
    · by_cases hready : q = .ready_queue
      · subst hready
        have hl : l.filter (Due (c.mem.setStatus i .TASK_READY) now) = l.filter (Due c.mem now) :=
          List.filter_congr fun j _ => hdue j
        simp [Queues.move, List.erase_of_not_mem (hother _ hsleep), hd, hl]
      · simp [Queues.move, hsleep, hready, Ne.symm hready, List.erase_of_not_mem (hother _ hsleep)]
  rw [St.wake, hmem, hdev]
  rfl

/-! ### The walk -/

/-- An answer of a clock that stands still. -/
theorem exec_get_timer {σ : Type} {H : Handler Op Op.Res σ} {d : Conf Kernel σ} (hclock : ∀ n, d.mem.clock n = now) :
    exec H get_timer d = some (now, d) := by
  obtain ⟨m, L⟩ := d
  have hsame : { m with clock := fun n => m.clock (n + 1) } = m := by
    have : (fun n => m.clock (n + 1)) = m.clock := funext fun n => (hclock (n + 1)).trans (hclock n).symm
    rw [this]
  have hex : exec H get_timer ⟨m, L⟩ = some (m.clock 0, ⟨{ m with clock := fun n => m.clock (n + 1) }, L⟩) := rfl
  rw [hex, hsame, hclock 0]

/-- The walk wakes the due tasks among those that are left, when the tasks `l₁` have been passed. -/
theorem exec_checkLoop (fuel : ℕ) (hn : ∀ q, (c.dev q).Nodup) (ha : c.dev.Apart) (hclock : ∀ n, c.mem.clock n = now)
    (hl : c.dev .sleep_queue = l₁ ++ l₂) (hf : l₂.length < fuel) :
    exec listed (checkLoop fuel (first .sleep_queue l₂)) c = some ((), c.wake now l₂) := by
  induction fuel generalizing c l₁ l₂ with
  | zero => exact absurd hf (Nat.not_lt_zero _)
  | succ fuel ih =>
    cases l₂ with
    | nil =>
      rw [first, checkLoop, if_pos rfl, wake_nil]
      rfl
    | cons i l₂ =>
      have hnd := hn .sleep_queue
      rw [hl] at hnd
      have hi₁ : i ∉ l₁ := fun hi => (List.nodup_append.mp hnd).2.2 i hi i (List.mem_cons_self ..) rfl
      have hi₂ : i ∉ l₂ := (List.nodup_cons.mp (List.nodup_append.mp hnd).2.1).1
      have hi : i ∈ c.dev .sleep_queue := by rw [hl]; simp
      have hnext : exec listed (nextNode .sleep_queue (.task i)) c = some (first .sleep_queue l₂, c) := by
        refine exec_nextNode (by rintro i ⟨⟩) ?_
        rw [follower, if_pos hi, hl, Repr.tail_dropWhile hi₁]
      rw [first, checkLoop, exec_bind, hnext, Option.bind_some, exec_bind, exec_get, Option.bind_some, exec_bind,
        exec_get_timer hclock, Option.bind_some, exec_bind, ifThen]
      cases hd : Due c.mem now i with
      | true =>
        rw [if_pos (of_decide_eq_true hd), exec_do_unblock hn (not_free hi),
          Option.bind_some, wake_cons_of_due hn ha hi hi₂ hd]
        have hleft : (c.move i (some .ready_queue) .TASK_READY).dev .sleep_queue = l₁ ++ l₂ := by
          rw [dev_move, hl, List.erase_append_right _ hi₁, List.erase_cons_head, if_neg (by decide), List.append_nil]
        exact ih (nodup_move hn) (fun _ _ _ => disjoint_move hn ha _ _) hclock hleft (by simpa using hf)
      | false =>
        rw [if_neg (of_decide_eq_false hd), exec_pure, Option.bind_some, wake_cons_of_not hd]
        have hleft : c.dev .sleep_queue = (l₁ ++ [i]) ++ l₂ := by rw [hl, List.append_assoc, List.singleton_append]
        exact ih hn ha hclock hleft (by simpa using hf)

/-- `check_sleeping` on lists. -/
theorem exec_check_sleeping (hn : ∀ q, (c.dev q).Nodup) (ha : c.dev.Apart) (hclock : ∀ n, c.mem.clock n = now) :
    exec listed check_sleeping c = some ((), c.wake now (c.dev .sleep_queue)) := by
  rw [check_sleeping, exec_bind, exec_first (q := .sleep_queue) (by rintro i ⟨⟩), Option.bind_some]
  refine exec_checkLoop _ hn ha hclock (List.nil_append _).symm ?_
  have := List.Nodup.length_le_card (hn .sleep_queue)
  rw [Fintype.card_fin] at this
  omega

/-- What `check_sleeping` leaves. -/
structure Wakes (m : Kernel) (Q : Queues) (now : UInt64) (m' : Kernel) (Q' : Queues) : Prop where
  /-- The tasks whose time has not come stay, in their order. -/
  asleep : Q' .sleep_queue = (Q .sleep_queue).filter fun i => now < (m.pcb i).wakeup_time
  /-- The others are appended to `ready_queue`, in their order. -/
  awake : Q' .ready_queue = Q .ready_queue ++ (Q .sleep_queue).filter fun i => (m.pcb i).wakeup_time ≤ now
  queues : ∀ q, q ≠ .sleep_queue → q ≠ .ready_queue → Q' q = Q q
  /-- They are ready. -/
  ready : ∀ i ∈ Q .sleep_queue, (m.pcb i).wakeup_time ≤ now → m'.pcb i = { m.pcb i with status := .TASK_READY }
  others : ∀ i, (i ∈ Q .sleep_queue → now < (m.pcb i).wakeup_time) → m'.pcb i = m.pcb i
  /-- No other variable is touched. -/
  rest : m' = { m with pcb := m'.pcb }

theorem wakes_wake (m : Kernel) (Q : Queues) (now : UInt64) :
    Wakes m Q now (m.wake now (Q .sleep_queue)) (Q.wake m now (Q .sleep_queue)) := by
  refine ⟨?_, rfl, fun q hs hr => ?_, fun i hi hd => ?_, fun i hi => ?_, rfl⟩
  · refine List.filter_congr fun i hi => ?_
    simp [hi, Due]
  · simp [Queues.wake, hs, hr]
  · exact if_pos ⟨hi, decide_eq_true hd⟩
  · refine if_neg fun ⟨hmem, hd⟩ => ?_
    exact absurd (of_decide_eq_true hd) (UInt64.not_le.mpr (hi hmem))

/-- `check_sleeping` on pointers, for queues of any tasks and any clock. -/
theorem check_sleeping_exact {L : Links Node} (hrep : Repr Q L) (hclock : ∀ n, m.clock n = now) :
    ∃ m' L' Q', exec pointers check_sleeping ⟨m, L⟩ = some ((), ⟨m', L'⟩) ∧ Repr Q' L' ∧ Wakes m Q now m' Q' := by
  have he := exec_check_sleeping (c := ⟨m, Q⟩) hrep.nodup hrep.disjoint hclock
  obtain ⟨L', hL, hrep'⟩ := exec_pointers check_sleeping hrep he
  exact ⟨_, L', _, hL, hrep', wakes_wake m Q now⟩

/-! ### While a task sleeps -/

/-- The clock has not been asked, and the wakeup time of task `i` is as before. -/
structure Undisturbed (i : Slot) (m m' : Kernel) : Prop where
  clock : m'.clock = m.clock
  log : ∃ es, m'.log = m.log ++ es
  wakeup : (m'.pcb i).wakeup_time = (m.pcb i).wakeup_time

instance : Std.Refl (Undisturbed i) := ⟨fun _ => ⟨rfl, ⟨[], (List.append_nil _).symm⟩, rfl⟩⟩

instance : IsTrans Kernel (Undisturbed i) := ⟨fun _ _ _ n₁ n₂ => by
  obtain ⟨es₁, h₁⟩ := n₁.log
  obtain ⟨es₂, h₂⟩ := n₂.log
  exact ⟨n₂.clock.trans n₁.clock, ⟨es₁ ++ es₂, by rw [h₂, h₁, List.append_assoc]⟩, n₂.wakeup.trans n₁.wakeup⟩⟩

/-- `n` answers of the clock and the events `es` after `m₀`. -/
structure Later (m₀ : Kernel) (n : ℕ) (es : List Event) (m : Kernel) : Prop where
  clock : m.clock = fun k => m₀.clock (n + k)
  log : m.log = m₀.log ++ es

/-- Since `m₀`, an answer of the clock was `w` or later, or task `i` has ended. -/
def Over (m₀ : Kernel) (i : Slot) (w : UInt64) (m : Kernel) : Prop :=
  ∃ n es, Later m₀ n es m ∧ ((∃ r < n, w ≤ m₀.clock r) ∨ .ended i ∈ es)

/-- Task `i` sleeps until `w`, unless that is over. -/
structure Asleep (m₀ : Kernel) (i : Slot) (w : UInt64) (c : St) : Prop where
  apart : c.dev.Apart
  fate : Over m₀ i w c.mem ∨ (∃ n es, Later m₀ n es c.mem) ∧ i ∈ c.dev .sleep_queue ∧ (c.mem.pcb i).wakeup_time = w

variable {m₀ m' : Kernel} {α : Type} {k : Handle}

theorem Later.undisturbed {n : ℕ} {es : List Event} (hl : Later m₀ n es m) (hu : Undisturbed i m m') :
    ∃ es', Later m₀ n (es ++ es') m' := by
  obtain ⟨es', he⟩ := hu.log
  exact ⟨es', hu.clock.trans hl.clock, by rw [he, hl.log, List.append_assoc]⟩

theorem Over.undisturbed (ho : Over m₀ i w m) (hu : Undisturbed j m m') : Over m₀ i w m' := by
  obtain ⟨n, es, hl, ho⟩ := ho
  obtain ⟨es', hl'⟩ := hl.undisturbed hu
  exact ⟨n, es ++ es', hl', ho.imp_right fun he => List.mem_append_left es' he⟩

/-- It stays asleep when its queue and its wakeup time stay, and when it is over. -/
theorem Asleep.keep (ha : Asleep m₀ i w c) (hu : Undisturbed i c.mem c'.mem) (hapart : c'.dev.Apart)
    (hq : Over m₀ i w c.mem ∨ (i ∈ c.dev .sleep_queue → i ∈ c'.dev .sleep_queue)) : Asleep m₀ i w c' := by
  refine ⟨hapart, ?_⟩
  rcases ha.fate with ho | ⟨⟨n, es, hl⟩, hi, hw⟩
  · exact Or.inl (ho.undisturbed hu)
  · obtain ⟨es', hl'⟩ := hl.undisturbed hu
    exact hq.imp (fun ho => ho.undisturbed hu) fun hq => ⟨⟨n, es ++ es', hl'⟩, hq hi, hu.wakeup.trans hw⟩

theorem Asleep.spares {o : Option Slot} {x : SchedM α} (ha : Asleep m₀ i w c) (hx : SparesAt .sleep_queue o c x)
    (hk : Keeps (Undisturbed i) x) : Ensures listed c x fun _ c' => Asleep m₀ i w c' := by
  refine ((hx ha.apart).and (hk c.mem).ensures).mono ?_
  rintro _ c' ⟨⟨hapart, hq, -⟩, hu⟩
  exact ha.keep hu hapart (Or.inr fun hi => by rw [hq]; exact hi)

/-- What leaves `sleep_queue`, the clock and the wakeup time alone leaves the task asleep. -/
theorem asleep_of_spares {o : Option Slot} {x : SchedM α}
    (hx : Spares .sleep_queue o x) (hk : Keeps (Undisturbed i) x) :
    Stable listed (Asleep m₀ i w) x := fun c ha => ha.spares (hx c) hk

/-! ### Variables -/

theorem undisturbed_modify {g : Kernel → Kernel} (hc : ∀ m, (g m).clock = m.clock)
    (hl : ∀ m, (g m).log = m.log) (hp : ∀ m, (g m).pcb = m.pcb) :
    Keeps (Undisturbed i) (modify g : SchedM PUnit) :=
  Keeps.modify fun m => ⟨hc m, ⟨[], by rw [hl, List.append_nil]⟩, by rw [hp]⟩

theorem setPcb_undisturbed {f : Pcb → Pcb} (hf : ∀ p, (f p).wakeup_time = p.wakeup_time) :
    Keeps (Undisturbed i) (setPcb j f) := by
  refine Keeps.modify fun m => ⟨rfl, ⟨[], (List.append_nil _).symm⟩, ?_⟩
  by_cases hij : i = j
  · subst hij
    simp [hf]
  · simp [hij]

theorem setStatus_undisturbed (st : TaskStatus) : Keeps (Undisturbed i) (setStatus j st) := by
  apply setPcb_undisturbed
  exact fun _ => rfl

theorem record_undisturbed (e : Event) : Keeps (Undisturbed i) (record e) :=
  Keeps.modify fun _ => ⟨rfl, ⟨[e], rfl⟩, rfl⟩

/-- Variables change that are none of the above. -/
theorem modify_asleep {g : Kernel → Kernel} (hc : ∀ m, (g m).clock = m.clock)
    (hl : ∀ m, (g m).log = m.log) (hp : ∀ m, (g m).pcb = m.pcb) :
    Stable listed (Asleep m₀ i w) (modify g : SchedM PUnit) := fun _ ha => Ensures.modify (ha.keep
  ⟨hc _, ⟨[], by rw [hl, List.append_nil]⟩, by rw [hp]⟩ ha.apart (Or.inr id))

theorem setPcb_asleep {f : Pcb → Pcb} (hf : ∀ p, (f p).wakeup_time = p.wakeup_time) :
    Stable listed (Asleep m₀ i w) (setPcb j f) :=
  fun c ha => by
    have hdev : Ensures listed c (setPcb j f) fun _ c' => c'.dev = c.dev := Ensures.modify rfl
    exact ((setPcb_undisturbed hf c.mem).ensures.and hdev).mono
      fun _ _ hc' => ha.keep hc'.1 (hc'.2 ▸ ha.apart) (Or.inr fun hi => hc'.2 ▸ hi)

theorem setStatus_asleep (st : TaskStatus) : Stable listed (Asleep m₀ i w) (setStatus j st) := by
  apply setPcb_asleep
  exact fun _ => rfl

theorem finish_asleep (v : ℤ) : Stable listed (Asleep m₀ i w) (finish j v) :=
  modify_asleep (fun _ => rfl) (fun _ => rfl) fun _ => rfl

theorem setResume_asleep (r : Resume) : Stable listed (Asleep m₀ i w) (setResume j r) :=
  modify_asleep (fun _ => rfl) (fun _ => rfl) fun _ => rfl

theorem setCurrent_asleep (r : Option Slot) : Stable listed (Asleep m₀ i w) (setCurrent h r) :=
  modify_asleep (fun _ => rfl) (fun _ => rfl) fun _ => rfl

theorem setMlock_asleep (b : MutexLock) : Stable listed (Asleep m₀ i w) (setMlock k b) :=
  modify_asleep (fun _ => rfl) (fun _ => rfl) fun _ => rfl

theorem setBarrier_asleep (b : Barrier) : Stable listed (Asleep m₀ i w) (setBarrier k b) :=
  modify_asleep (fun _ => rfl) (fun _ => rfl) fun _ => rfl

theorem setCondition_asleep (b : Condition) : Stable listed (Asleep m₀ i w) (setCondition k b) :=
  modify_asleep (fun _ => rfl) (fun _ => rfl) fun _ => rfl

theorem setMailbox_asleep (b : Mailbox) : Stable listed (Asleep m₀ i w) (setMailbox k b) :=
  modify_asleep (fun _ => rfl) (fun _ => rfl) fun _ => rfl

theorem record_asleep (e : Event) : Stable listed (Asleep m₀ i w) (record e) :=
  asleep_of_spares (o := none) (record_spares e) (record_undisturbed e)

theorem ifThen_asleep {p : Prop} [Decidable p] {x : SchedM Unit} (hx : Stable listed (Asleep m₀ i w) x) :
    Stable listed (Asleep m₀ i w) (ifThen p x) := Stable.ite hx (Stable.pure _)

/-! ### Queues -/

theorem initQueue_asleep : Stable listed (Asleep m₀ i w) (initQueue q) :=
  asleep_of_spares (o := none) initQueue_spares (Keeps.perform (Op.init q))

theorem processPages_asleep (pid : Int32) (task : ℕ) : Stable listed (Asleep m₀ i w) (processPages j pid task) :=
  asleep_of_spares (o := none) (processPages_spares pid task) (Keeps.perform (Op.processPages j pid task))

theorem threadPages_asleep (pid thread : Int32) : Stable listed (Asleep m₀ i w) (threadPages j pid thread) :=
  asleep_of_spares (o := none) (threadPages_spares pid thread) (Keeps.perform (Op.threadPages j pid thread))

theorem releasePages_asleep : Stable listed (Asleep m₀ i w) (releasePages j) :=
  asleep_of_spares (o := none) releasePages_spares
    (Keeps.read fun _ => ifThen_keeps (Keeps.perform (Op.releasePages _ _)))

theorem add_readyqueue_undisturbed : Keeps (Undisturbed i) (add_readyqueue j) :=
  (setStatus_undisturbed _).bind fun _ => Keeps.perform (Op.enqueue j .ready_queue)

theorem do_unblock_undisturbed : Keeps (Undisturbed i) (do_unblock j) :=
  (Keeps.perform (Op.unlink j)).bind fun _ => add_readyqueue_undisturbed

theorem wakeLoop_undisturbed (fuel : ℕ) : Keeps (Undisturbed i) (wakeLoop q fuel) := by
  induction fuel with
  | zero => exact Keeps.stop
  | succ fuel ih =>
    rw [wakeLoop]
    refine (Keeps.perform (Op.next q (.head q))).bind fun n => ?_
    cases n with
    | task j => exact do_unblock_undisturbed.bind fun _ => ih
    | head q' => exact Keeps.ite (Keeps.pure _) Keeps.stop

theorem pickLoop_undisturbed (fuel : ℕ) (n : Node) : Keeps (Undisturbed i) (pickLoop h fuel n) := by
  induction fuel generalizing n with
  | zero => exact Keeps.stop
  | succ fuel ih =>
    cases n with
    | task j =>
      rw [pickLoop]
      refine Keeps.read fun s => Keeps.ite ?_ ((Keeps.perform (Op.next _ _)).bind fun n => ih n)
      refine Keeps.bind (undisturbed_modify (fun _ => rfl) (fun _ => rfl) fun _ => rfl) fun _ => ?_
      refine (Keeps.perform (Op.unlink j)).bind fun _ => Keeps.bind (setPcb_undisturbed ?_) fun _ => Keeps.pure _
      exact fun _ => rfl
    | head q' => exact Keeps.ite (Keeps.pure _) Keeps.stop

theorem add_readyqueue_asleep : Stable listed (Asleep m₀ i w) (add_readyqueue j) :=
  asleep_of_spares (o := none) (add_readyqueue_spares (by decide)) add_readyqueue_undisturbed

theorem wakeAll_asleep (hq : q ≠ .sleep_queue) : Stable listed (Asleep m₀ i w) (wakeAll q) :=
  asleep_of_spares (o := none) (wakeAll_spares (by decide) hq) (wakeLoop_undisturbed _)

/-- A task joins a queue, and nobody leaves one. -/
theorem enqueue_joins (ha : c.dev.Apart) : Ensures listed c (enqueue j q) fun _ c' =>
    c'.mem = c.mem ∧ c'.dev.Apart ∧ (∀ p x, x ∈ c.dev p → x ∈ c'.dev p) ∧ j ∈ c'.dev q := by
  have hapart : Ensures listed c (enqueue j q) fun _ c' => c'.dev.Apart := by
    by_cases hq : q = .ready_queue
    · exact (enqueue_spares (q := .sleep_queue) (o := none) (by rw [hq]; decide) c ha).mono fun _ _ hc' => hc'.1
    · exact (enqueue_spares (q := .ready_queue) (o := none) hq c ha).mono fun _ _ hc' => hc'.1
  have hmem : Ensures listed c (enqueue j q) fun _ c' =>
      c'.mem = c.mem ∧ (∀ p x, x ∈ c.dev p → x ∈ c'.dev p) ∧ j ∈ c'.dev q := by
    refine Ensures.perform fun r d he => ⟨rfl, fun p x hx => ?_, ?_⟩
    all_goals
      simp only [listed, Option.ite_none_right_eq_some, Option.some.injEq, Prod.mk.injEq] at he
      obtain ⟨-, -, rfl⟩ := he
    · by_cases hp : p = q
      · subst hp
        simp [hx]
      · simpa [hp] using hx
    · simp
  refine (hapart.and hmem).mono ?_
  rintro _ c' ⟨hapart, hm, hmem, hj⟩
  exact ⟨hm, hapart, hmem, hj⟩

theorem enqueue_asleep : Stable listed (Asleep m₀ i w) (enqueue j q) := by
  intro c ha
  refine (enqueue_joins ha.apart).mono ?_
  rintro _ c' ⟨hm, hapart, hmem, -⟩
  exact ha.keep (by rw [hm]; exact Std.Refl.refl _) hapart (Or.inr (hmem _ i))

theorem do_block_asleep : Stable listed (Asleep m₀ i w) (do_block j q) :=
  enqueue_asleep.bind fun _ => setStatus_asleep _

/-- A task is taken out of its queue: another one, or when it is over. -/
theorem unlink_asleep (ha : Asleep m₀ i w c) (hj : j = i → Over m₀ i w c.mem) :
    Ensures listed c (unlink j) fun _ c' => Asleep m₀ i w c' := by
  refine Ensures.perform fun r d he => ?_
  simp only [listed, Option.ite_none_left_eq_some, Option.some.injEq, Prod.mk.injEq] at he
  obtain ⟨-, -, rfl⟩ := he
  refine ha.keep (Std.Refl.refl _)
    (fun x p p' hp hp' => ha.apart x p p' (List.mem_of_mem_erase hp) (List.mem_of_mem_erase hp')) ?_
  by_cases hji : j = i
  · exact Or.inl (hj hji)
  · exact Or.inr fun hi => (List.mem_erase_of_ne (Ne.symm hji)).mpr hi

theorem remove_pcb_queue_asleep (ha : Asleep m₀ i w c) (hj : j = i → Over m₀ i w c.mem) :
    Ensures listed c (remove_pcb_queue j) fun _ c' => Asleep m₀ i w c' := by
  refine Ensures.bind (q := fun _ c' => c' = c) (Ensures.perform fun r d he => ?_) ?_
  · rw [← (Prod.mk.inj (Option.some.inj he)).2]
  · rintro b _ rfl
    exact Ensures.ite (fun _ => unlink_asleep ha hj) fun _ => Ensures.pure ha

/-! ### The scheduler -/

/-- The clock is asked. -/
theorem get_timer_asleep (ha : Asleep m₀ i w c) : Ensures listed c get_timer fun now c' =>
    Asleep m₀ i w c' ∧ c'.dev = c.dev ∧ c'.mem.pcb = c.mem.pcb ∧ (w ≤ now → Over m₀ i w c'.mem) := by
  have hnext : ∀ n es, Later m₀ n es c.mem →
      Later m₀ (n + 1) es { c.mem with clock := fun k => c.mem.clock (k + 1) } := by
    intro n es hl
    refine ⟨funext fun k => ?_, hl.log⟩
    rw [hl.clock]
    exact congrArg m₀.clock (by omega)
  refine Ensures.get_bind (Ensures.modify_bind (Ensures.pure ⟨⟨ha.apart, ?_⟩, rfl, rfl, fun hw => ?_⟩))
  · refine ha.fate.imp ?_ ?_
    · rintro ⟨n, es, hl, ho⟩
      exact ⟨n + 1, es, hnext n es hl, ho.imp_left fun ⟨r, hr, hw⟩ => ⟨r, by omega, hw⟩⟩
    · rintro ⟨⟨n, es, hl⟩, hi, hw⟩
      exact ⟨⟨n + 1, es, hnext n es hl⟩, hi, hw⟩
  · obtain ⟨n, es, hl⟩ : ∃ n es, Later m₀ n es c.mem := by
      rcases ha.fate with ⟨n, es, hl, -⟩ | ⟨hl, -⟩
      · exact ⟨n, es, hl⟩
      · exact hl
    refine ⟨n + 1, es, hnext n es hl, Or.inl ⟨n, Nat.lt_succ_self n, ?_⟩⟩
    have hclock : c.mem.clock 0 = m₀.clock n := congrFun hl.clock 0
    rwa [← hclock]

/-- A task is woken when the clock says so. -/
theorem checkLoop_asleep (fuel : ℕ) (n : Node) : Stable listed (Asleep m₀ i w) (checkLoop fuel n) := by
  induction fuel generalizing n with
  | zero => exact Stable.stop
  | succ fuel ih =>
    cases n with
    | head q => exact Stable.ite (Stable.pure _) Stable.stop
    | task j =>
      intro c ha
      rw [checkLoop]
      refine (nextNode_mem _).bind ?_
      rintro n c ⟨rfl, -, -⟩
      refine Ensures.get_bind ((get_timer_asleep ha).bind ?_)
      rintro now c₁ ⟨ha₁, -, hpcb, hover⟩
      refine Ensures.bind (q := fun _ c' => Asleep m₀ i w c')
        (Ensures.ite (fun hdue => ?_) fun _ => Ensures.pure ha₁) fun _ c' hc' => ih n c' hc'
      refine (unlink_asleep ha₁ ?_).bind fun _ => add_readyqueue_asleep
      rintro rfl
      rcases ha₁.fate with ho | ⟨-, -, hw⟩
      · exact ho
      · rw [← hpcb, hw] at hdue
        exact hover hdue

theorem check_sleeping_asleep : Stable listed (Asleep m₀ i w) check_sleeping :=
  (asleep_of_spares (o := none) (nextNode_spares _) (Keeps.perform (Op.next _ _))).bind fun _ => checkLoop_asleep _ _

theorem requeue_asleep : Stable listed (Asleep m₀ i w) (requeue h) := by
  refine Stable.read fun s => ?_
  split
  · exact ifThen_asleep add_readyqueue_asleep
  · exact Stable.pure _

theorem do_scheduler_asleep : Stable listed (Asleep m₀ i w) (do_scheduler h) := by
  refine check_sleeping_asleep.bind fun _ => Stable.bind (requeue_asleep.bind fun _ c ha => ?_) fun b =>
    Stable.ite (Stable.pure _) (setCurrent_asleep _)
  refine (nextNode_mem _).bind ?_
  rintro n c ⟨rfl, hn, -⟩
  exact ha.spares (pickLoop_spares (o := none) (by decide) _ n hn) (pickLoop_undisturbed _ n)

theorem suspend_asleep (r : Resume) : Stable listed (Asleep m₀ i w) (suspend h j r) :=
  (setResume_asleep r).bind fun _ => do_scheduler_asleep

theorem blockIn_asleep (r : Resume) : Stable listed (Asleep m₀ i w) (blockIn h j q r) :=
  (setResume_asleep r).bind fun _ => do_block_asleep.bind fun _ => do_scheduler_asleep

/-! ### Calls -/

/-- A task that is in a queue cannot block. -/
theorem blockIn_queued {p : Queue} (hj : j ∈ Q p) (r : Resume) {post : Unit → St → Prop} :
    Ensures listed ⟨m, Q⟩ (blockIn h j q r) post := by
  refine Ensures.modify_bind (Ensures.bind (q := fun _ _ => False)
    (Ensures.bind (q := fun _ _ => False) (Ensures.perform fun a d he => ?_) ?_) ?_)
  · simp only [listed, Option.ite_none_right_eq_some] at he
    exact he.1.1 p hj
  · exact fun _ _ hf => hf.elim
  · exact fun _ _ hf => hf.elim

theorem do_sleep_asleep (t : UInt32) : Stable listed (Asleep m₀ i w) (do_sleep h j t) := by
  intro c ha
  rw [do_sleep]
  refine (get_timer_asleep ha).bind ?_
  rintro now c₁ ⟨⟨hapart, hfate⟩, -⟩
  rcases hfate with ⟨n, es, hl, ho⟩ | ⟨hl, hi, hw⟩
  · exact Ensures.modify_bind (blockIn_asleep _ _ ⟨hapart, Or.inl ⟨n, es, ⟨hl.clock, hl.log⟩, ho⟩⟩)
  · by_cases hji : j = i
    · subst hji
      exact Ensures.modify_bind (blockIn_queued hi _)
    · refine Ensures.modify_bind (blockIn_asleep _ _ ⟨hapart, Or.inr ⟨?_, hi, ?_⟩⟩)
      · obtain ⟨n, es, hl⟩ := hl
        exact ⟨n, es, hl.clock, hl.log⟩
      · simpa [Ne.symm hji] using hw

theorem unlock_asleep : Stable listed (Asleep m₀ i w) (unlock k) :=
  Stable.read fun _ => (setMlock_asleep _).bind fun _ => wakeAll_asleep (by nofun)

theorem do_mutex_lock_release_asleep : Stable listed (Asleep m₀ i w) (do_mutex_lock_release j k) :=
  (record_asleep _).bind fun _ => unlock_asleep

theorem do_mutex_lock_acquire_asleep : Stable listed (Asleep m₀ i w) (do_mutex_lock_acquire h j k) :=
  Stable.read fun _ => Stable.ite (blockIn_asleep _)
    ((setMlock_asleep _).bind fun _ => (record_asleep _).bind fun _ => finish_asleep _)

theorem releaseLoop_asleep (pid : Int32) (ks : List Handle) : Stable listed (Asleep m₀ i w) (releaseLoop pid ks) := by
  induction ks with
  | nil => exact Stable.pure _
  | cons k ks ih => exact Stable.read fun _ => (ifThen_asleep unlock_asleep).bind fun _ => ih

theorem do_exec_asleep (name : Name) : Stable listed (Asleep m₀ i w) (do_exec h name) := by
  refine Stable.read fun s => ?_
  split
  · exact Stable.pure _
  · split
    · exact Stable.pure _
    · refine Stable.bind (modify_asleep (fun _ => rfl) (fun _ => rfl) fun _ => rfl) fun _ =>
        Stable.bind (setPcb_asleep ?_) fun _ => ?_
      · exact fun _ => rfl
      · refine initQueue_asleep.bind fun _ => (processPages_asleep _ _).bind fun _ =>
          (setResume_asleep _).bind fun _ => ?_
        exact add_readyqueue_asleep.bind fun _ => Stable.pure _

theorem do_taskset_exec_asleep (name : Name) (mask : UInt64) :
    Stable listed (Asleep m₀ i w) (do_taskset_exec h name mask) := by
  refine (do_exec_asleep name).bind fun pid => Stable.ite (Stable.pure _) (Stable.read fun s => ?_)
  split
  · exact Stable.stop
  · refine Stable.bind (setPcb_asleep ?_) fun _ => Stable.pure _
    exact fun _ => rfl

theorem do_taskset_pid_asleep (pid : Int32) (mask : UInt64) :
    Stable listed (Asleep m₀ i w) (do_taskset_pid pid mask) := by
  refine Stable.read fun s => ?_
  split
  · exact Stable.pure _
  · refine Stable.bind (setPcb_asleep ?_) fun _ => Stable.pure _
    exact fun _ => rfl

theorem do_pthread_create_asleep (thread : Int32) : Stable listed (Asleep m₀ i w) (do_pthread_create j thread) := by
  refine Stable.read fun s => ?_
  split
  · exact finish_asleep _
  · refine Stable.bind (setPcb_asleep ?_) fun _ =>
      initQueue_asleep.bind fun _ => (threadPages_asleep _ _).bind fun _ => ?_
    · exact fun _ => rfl
    · exact (setResume_asleep _).bind fun _ => add_readyqueue_asleep.bind fun _ => finish_asleep _

theorem do_exit_asleep : Stable listed (Asleep m₀ i w) (do_exit h j) := by
  refine (wakeAll_asleep (by nofun)).bind fun _ => Stable.read fun s =>
    (releaseLoop_asleep _ _).bind fun _ => releasePages_asleep.bind fun _ => ?_
  exact (setStatus_asleep _).bind fun _ => (record_asleep _).bind fun _ => do_scheduler_asleep

/-- A killed task is taken out of `sleep_queue` after its end has been noted. -/
theorem killPcb_asleep (pid : Int32) : Stable listed (Asleep m₀ i w) (killPcb j pid) := by
  refine (wakeAll_asleep (by nofun)).bind fun _ =>
    (releaseLoop_asleep _ _).bind fun _ => releasePages_asleep.bind fun _ => ?_
  refine (setStatus_asleep _).bind fun _ c ha => ?_
  refine Ensures.bind (q := fun _ c' => Asleep m₀ i w c' ∧ (j = i → Over m₀ i w c'.mem))
    ((record_asleep _ c ha).and (Ensures.modify ?_))
    fun _ c' hc' => remove_pcb_queue_asleep hc'.1 hc'.2
  rintro rfl
  obtain ⟨n, es, hl⟩ : ∃ n es, Later m₀ n es c.mem := by
    rcases ha.fate with ⟨n, es, hl, -⟩ | ⟨hl, -⟩
    · exact ⟨n, es, hl⟩
    · exact hl
  exact ⟨n, es ++ [.ended j], ⟨hl.clock, by rw [← List.append_assoc, ← hl.log]⟩, Or.inr (by simp)⟩

theorem killLoop_asleep (pid : Int32) (fuel : ℕ) : Stable listed (Asleep m₀ i w) (killLoop h j pid fuel) := by
  induction fuel with
  | zero => exact Stable.stop
  | succ fuel ih =>
    refine Stable.read fun s => ?_
    split
    · exact finish_asleep _
    · exact Stable.ite do_exit_asleep ((killPcb_asleep pid).bind fun _ => ih)

theorem do_mutex_lock_init_asleep (key : ℤ) : Stable listed (Asleep m₀ i w) (do_mutex_lock_init j key) := by
  refine Stable.read fun s => ?_
  split
  · exact finish_asleep _
  · split
    · refine (setMlock_asleep _).bind fun _ =>
        Stable.bind (modify_asleep (fun _ => rfl) (fun _ => rfl) fun _ => rfl) fun _ => finish_asleep _
    · exact finish_asleep _

theorem do_condition_signal_asleep : Stable listed (Asleep m₀ i w) (do_condition_signal j k) := by
  intro c ha
  refine (nextNode_mem _).bind ?_
  rintro n c ⟨rfl, hn, -⟩
  cases n with
  | task x =>
    refine Ensures.bind (ha.spares (do_unblock_spares (o := none) (by decide) (by nofun) (hn x rfl))
      do_unblock_undisturbed) fun _ c' hc' => ?_
    exact finish_asleep _ c' hc'
  | head p => exact Stable.ite (finish_asleep _) Stable.stop c ha

theorem do_mbox_open_asleep (name : Name) : Stable listed (Asleep m₀ i w) (do_mbox_open j name) := by
  refine Stable.read fun s => ?_
  split
  · exact (setMailbox_asleep _).bind fun _ => finish_asleep _
  · split
    · exact finish_asleep _
    · refine (setMailbox_asleep _).bind fun _ => initQueue_asleep.bind fun _ => initQueue_asleep.bind fun _ => ?_
      exact (record_asleep _).bind fun _ => finish_asleep _

theorem do_mbox_send_asleep (msg : ℕ → UInt8) (len n : ℤ) :
    Stable listed (Asleep m₀ i w) (do_mbox_send h j k msg len n) := by
  refine Stable.read fun s => Stable.ite Stable.stop (Stable.ite (Stable.ite Stable.stop ?_) (blockIn_asleep _))
  exact (setMailbox_asleep _).bind fun _ => (record_asleep _).bind fun _ =>
    (wakeAll_asleep (by nofun)).bind fun _ => finish_asleep _

theorem do_mbox_recv_asleep (len n : ℤ) : Stable listed (Asleep m₀ i w) (do_mbox_recv h j k len n) := by
  refine Stable.read fun s => Stable.ite (Stable.ite Stable.stop ?_) (blockIn_asleep _)
  exact (setMailbox_asleep _).bind fun _ => (record_asleep _).bind fun _ =>
    (wakeAll_asleep (by nofun)).bind fun _ => finish_asleep _

theorem handle_syscall_asleep (call : Call) : Stable listed (Asleep m₀ i w) (handle_syscall h j call) := by
  cases call with
  | do_scheduler => exact suspend_asleep _
  | do_sleep t => exact do_sleep_asleep t
  | do_exec name => exact (do_exec_asleep name).bind fun _ => finish_asleep _
  | do_exit => exact do_exit_asleep
  | do_kill pid => exact killLoop_asleep pid _
  | do_waitpid pid =>
    refine Stable.read fun s => ?_
    split
    · exact finish_asleep _
    · exact blockIn_asleep _
  | do_taskset_exec name mask => exact (do_taskset_exec_asleep name mask).bind fun _ => finish_asleep _
  | do_taskset_pid pid mask => exact (do_taskset_pid_asleep pid mask).bind fun _ => finish_asleep _
  | do_pthread_create thread => exact do_pthread_create_asleep thread
  | do_pthread_join thread =>
    refine Stable.read fun s => ?_
    split
    · exact finish_asleep _
    · exact blockIn_asleep _
  | do_mutex_lock_init key => exact do_mutex_lock_init_asleep key
  | do_mutex_lock_acquire k => exact do_mutex_lock_acquire_asleep
  | do_mutex_lock_release k => exact do_mutex_lock_release_asleep.bind fun _ => finish_asleep _
  | do_barrier_init key goal =>
    refine Stable.read fun s => ?_
    split
    · exact finish_asleep _
    · exact (setBarrier_asleep _).bind fun _ => initQueue_asleep.bind fun _ => finish_asleep _
  | do_barrier_wait k =>
    refine Stable.read fun s => (setBarrier_asleep _).bind fun _ => Stable.ite ?_ (blockIn_asleep _)
    exact (wakeAll_asleep (by nofun)).bind fun _ => (setBarrier_asleep _).bind fun _ => finish_asleep _
  | do_barrier_destroy k =>
    exact (wakeAll_asleep (by nofun)).bind fun _ => Stable.read fun _ =>
      (setBarrier_asleep _).bind fun _ => finish_asleep _
  | do_condition_init key =>
    refine Stable.read fun s => ?_
    split
    · exact finish_asleep _
    · exact (setCondition_asleep _).bind fun _ => initQueue_asleep.bind fun _ => finish_asleep _
  | do_condition_wait k x =>
    refine (setResume_asleep _).bind fun _ => do_block_asleep.bind fun _ => ?_
    exact do_mutex_lock_release_asleep.bind fun _ => do_scheduler_asleep
  | do_condition_signal k => exact do_condition_signal_asleep
  | do_condition_broadcast k => exact (wakeAll_asleep (by nofun)).bind fun _ => finish_asleep _
  | do_condition_destroy k =>
    exact (wakeAll_asleep (by nofun)).bind fun _ => Stable.read fun _ =>
      (setCondition_asleep _).bind fun _ => finish_asleep _
  | do_mbox_open name => exact do_mbox_open_asleep name
  | do_mbox_close k => exact Stable.read fun _ => (setMailbox_asleep _).bind fun _ => finish_asleep _
  | do_mbox_send k msg len => exact do_mbox_send_asleep msg len 0
  | do_mbox_recv k len => exact do_mbox_recv_asleep len 0

/-- Whatever a hart does, a sleeping task sleeps on until its time has come or it has ended. -/
theorem act_asleep (a : Action) : Stable listed (Asleep m₀ i w) (act h a) := by
  refine Stable.read fun s => ?_
  split
  · next msg _ =>
    cases s.resume _ with
    | user => exact Stable.pure _
    | ret v => exact finish_asleep v
    | acquire k => exact do_mutex_lock_acquire_asleep
    | send k len n => exact do_mbox_send_asleep msg len n
    | recv k len n => exact do_mbox_recv_asleep len n
  · exact Stable.ite do_scheduler_asleep (suspend_asleep _)
  · exact Stable.ite do_scheduler_asleep (handle_syscall_asleep _)
  · exact do_scheduler_asleep
  · exact (do_exec_asleep _).bind fun _ => Stable.pure _
  · exact (do_taskset_exec_asleep _ _).bind fun _ => Stable.pure _
  · exact (do_taskset_pid_asleep _ _).bind fun _ => Stable.pure _
  · exact Stable.stop

/-! ### Runs -/

/-- Runs from a call of `do_sleep(t)` by task `i` in `s₀`. Every step meets `P`. -/
inductive Sleeps (P : Kernel → Hart → Action → Prop) (i : Slot) (t : UInt32) (s₀ : Machine) : Machine → Prop where
  /-- The call. -/
  | call {s : Machine} {h : Hart} (hr : Reach P s₀)
      (hi : s₀.mem.current_running h = some i) (hp : P s₀.mem h (.call (.do_sleep t)))
      (hs : Step h (.call (.do_sleep t)) s₀ s) : Sleeps P i t s₀ s
  /-- Any step. -/
  | step {s s' : Machine} {h : Hart} {a : Action} (hr : Sleeps P i t s₀ s)
      (hp : P s.mem h a) (hs : Step h a s s') : Sleeps P i t s₀ s'

/-- Since `s₀`, the clock has answered `n + 1` times, at last `t` or more after its first answer; or task
`i` has ended. -/
def Rested (i : Slot) (t : UInt32) (s₀ s : Machine) : Prop :=
  .ended i ∈ s.mem.log.drop s₀.mem.log.length ∨ ∃ n, (∀ k, s.mem.clock k = s₀.mem.clock (n + 1 + k)) ∧
    (s₀.mem.clock 0).toNat + t.toNat ≤ (s₀.mem.clock n).toNat

/-- The task that calls `do_sleep` sleeps. -/
theorem do_sleep_enters (t : UInt32) (ha : At h i c) :
    Ensures listed c (do_sleep h i t) fun _ c' => Asleep c.mem i (t.toUInt64 + c.mem.clock 0) c' := by
  refine Ensures.seq (a := c.mem.clock 0) (d := ⟨{ c.mem with clock := fun n => c.mem.clock (n + 1) }, c.dev⟩) rfl ?_
  refine Ensures.modify_bind (Ensures.modify_bind ?_)
  generalize hc₁ : (Conf.mk _ _ : St) = c₁
  have hdev : c₁.dev = c.dev := by rw [← hc₁]
  have hlater : Later c.mem 1 [] c₁.mem := by
    rw [← hc₁]
    exact ⟨funext fun k => congrArg c.mem.clock (Nat.add_comm k 1), (List.append_nil _).symm⟩
  have hwakeup : (c₁.mem.pcb i).wakeup_time = t.toUInt64 + c.mem.clock 0 := by
    rw [← hc₁]
    simp
  refine Ensures.bind (q := fun _ c' => Asleep c.mem i (t.toUInt64 + c.mem.clock 0) c') ?_ fun _ c' hc' =>
    do_scheduler_asleep c' hc'
  refine (enqueue_joins (by rw [hdev]; exact ha.disc.apart)).bind ?_
  rintro _ c₂ ⟨hm, hapart, -, hi⟩
  exact setStatus_asleep _ c₂ ⟨hapart, Or.inr ⟨⟨1, [], hm ▸ hlater⟩, hi, by rw [hm]; exact hwakeup⟩⟩

/-- What every run keeps. -/
theorem Sleeps.kept {t : UInt32} {s₀ s : Machine} (hr : Sleeps NoRemoteKill i t s₀ s) :
    ∃ Q : Queues, Repr Q s.dev ∧ Inv ⟨s.mem, Q⟩ ∧
    Asleep s₀.mem i (t.toUInt64 + s₀.mem.clock 0) ⟨s.mem, Q⟩ := by
  induction hr with
  | call hr hi hp hs =>
    obtain ⟨Q, hrep, hinv⟩ := hr.sound fun _ _ _ hp => hp
    obtain ⟨Q', hrep', hinv', he⟩ := hs.listed hrep hinv hp.1 hp.2
    have ha : At _ i ⟨s₀.mem, Q⟩ := ⟨hinv, hi⟩
    exact ⟨Q', hrep', hinv', Ensures.act_call ha (e := .do_sleep t) (do_sleep_enters t ha) _ _ he⟩
  | step hr hp hs ih =>
    obtain ⟨Q, hrep, hinv, ha⟩ := ih
    obtain ⟨Q', hrep', hinv', he⟩ := hs.listed hrep hinv hp.1 hp.2
    exact ⟨Q', hrep', hinv', act_asleep _ _ ha _ _ he⟩

/-- A sleeping task that runs has slept long enough. -/
theorem Sleeps.rested {t : UInt32} {s₀ s : Machine} (hr : Sleeps NoRemoteKill i t s₀ s)
    (hmono : ∀ n n', n ≤ n' → s₀.mem.clock n ≤ s₀.mem.clock n') (hwrap : (s₀.mem.clock 0).toNat + t.toNat < 2 ^ 64)
    (hrun : s.mem.current_running h = some i) : Rested i t s₀ s := by
  obtain ⟨Q, -, hinv, -, hfate⟩ := hr.kept
  rcases hfate with ⟨n, es, hl, ⟨r, hrn, hw⟩ | hended⟩ | ⟨-, hi, -⟩
  · refine Or.inr ⟨n - 1, fun k => ?_, ?_⟩
    · rw [show n - 1 + 1 + k = n + k by omega]
      exact congrFun hl.clock k
    · have hlast : t.toUInt64 + s₀.mem.clock 0 ≤ s₀.mem.clock (n - 1) := UInt64.le_trans hw (hmono r (n - 1) (by omega))
      have := UInt64.le_iff_toNat_le.mp hlast
      rw [UInt64.toNat_add, UInt32.toNat_toUInt64] at this
      omega
  · refine Or.inl ?_
    rw [hl.log, List.drop_left]
    exact hended
  · exact absurd hi (hinv.disc.free_running (hinv.cur h i hrun) _)

/-- **The sleep queue.** For all queues and every clock, `check_sleeping` takes out exactly the tasks whose
time has come. In every run in which no process is killed while the other hart runs one of its tasks, a task
that calls `do_sleep(t)` is not dispatched before `t` has passed, unless it has been killed. -/
theorem sleep_queue_exact (m : Kernel) (Q : Queues) (L : Links Node)
    (now : UInt64) (i : Slot) (t : UInt32) (s₀ s : Machine) (h : Hart) :
    (Repr Q L → (∀ n, m.clock n = now) →
      ∃ m' L' Q', exec pointers check_sleeping ⟨m, L⟩ = some ((), ⟨m', L'⟩) ∧ Repr Q' L' ∧ Wakes m Q now m' Q') ∧
    (Sleeps NoRemoteKill i t s₀ s → (∀ n n', n ≤ n' → s₀.mem.clock n ≤ s₀.mem.clock n') →
      (s₀.mem.clock 0).toNat + t.toNat < 2 ^ 64 → s.mem.current_running h = some i → Rested i t s₀ s) :=
  ⟨fun hrep hclock => check_sleeping_exact hrep hclock, fun hr hmono hwrap hrun => hr.rested hmono hwrap hrun⟩

/-- The kernel as it is started, with a clock that counts to 100. -/
def Machine.ticking : Machine :=
  { Machine.start with mem := { Machine.start.mem with clock := fun n => UInt64.ofNat (min n 100) } }

theorem boot_ticking : Boot Machine.ticking :=
  ⟨boot_start.status, boot_start.current, boot_start.pid, boot_start.mutex,
    boot_start.lockid, boot_start.barrier, boot_start.condition,
    boot_start.mailbox, boot_start.log, boot_start.ring, boot_start.raw, boot_start.null⟩

/-- Two processes are started, of which the first runs. -/
def twoSleepers : List (Hart × Action) :=
  [(0, .call (.do_taskset_exec ⟨[], length_nil_lt⟩ 3)),
    (0, .call (.do_taskset_exec ⟨[], length_nil_lt⟩ 3)), (0, .timer)]

/-- The first process sleeps for four seconds, the second for sixty. When it is 5 o'clock, `check_sleeping`
takes out the first and leaves the second; the first runs again after the next interrupt. -/
theorem sleep_queue_twoTasks : ∃ s₀ s₂ s : Machine,
    (s₂.mem.pcb ⟨0, by decide⟩).wakeup_time = 4 ∧ (s₂.mem.pcb ⟨1, by decide⟩).wakeup_time = 62 ∧
    (∃ (m : Kernel) (Q : Queues) (L : Links Node),
      exec pointers check_sleeping ⟨{ s₂.mem with clock := fun _ => 5 }, s₂.dev⟩ = some ((), ⟨m, L⟩) ∧ Repr Q L ∧
        Q .sleep_queue = [⟨1, by decide⟩] ∧ Q .ready_queue = [⟨0, by decide⟩]) ∧
    s.mem.current_running 0 = some ⟨0, by decide⟩ ∧ Rested ⟨0, by decide⟩ 4 s₀ s := by
  have hclock : (stepsIf (fun m h a => decide (NoRemoteKill m h a)) twoSleepers .ticking).map (fun s => s.mem.clock) =
    some fun n => UInt64.ofNat (min n 100) := rfl
  have hrun : (stepsIf (fun m h a => decide (NoRemoteKill m h a)) twoSleepers .ticking).bind (fun s =>
      (exec pointers (act 0 (.call (.do_sleep 4))) s).bind fun r₁ =>
          (exec pointers (act 0 (.call (.do_sleep 60))) r₁.2).bind fun r₂ =>
        (exec pointers (act 0 .timer) r₂.2).map fun r => decide ((Enabled s.mem 0 (.call (.do_sleep 4)) ∧
          s.mem.current_running 0 = some ⟨0, by decide⟩) ∧
          Enabled r₁.2.mem 0 (.call (.do_sleep 60)) ∧ Enabled r₂.2.mem 0 .timer ∧
          ((r₂.2.mem.pcb ⟨0, by decide⟩).wakeup_time = 4 ∧ (r₂.2.mem.pcb ⟨1, by decide⟩).wakeup_time = 62) ∧
          (r₂.2.dev.Ring (.head .sleep_queue) ([⟨0, by decide⟩, ⟨1, by decide⟩].map .task) ∧
            r₂.2.dev.Ring (.head .ready_queue) ([].map .task)) ∧
          r.2.mem.current_running 0 = some ⟨0, by decide⟩)) = some true := by
    decide +kernel
  obtain ⟨s₀, hs₀, hrun⟩ := Option.bind_eq_some_iff.mp hrun
  obtain ⟨⟨⟨⟩, s₁⟩, hs₁, hrun⟩ := Option.bind_eq_some_iff.mp hrun
  obtain ⟨⟨⟨⟩, s₂⟩, hs₂, hrun⟩ := Option.bind_eq_some_iff.mp hrun
  obtain ⟨⟨⟨⟩, s⟩, hs, hrun⟩ := Option.map_eq_some_iff.mp hrun
  obtain ⟨⟨hen, hcur⟩, hen₁, hen₂, ⟨hfirst, hsecond⟩, ⟨hsleep, hready⟩, hcur'⟩ := of_decide_eq_true hrun
  have hreach : Reach NoRemoteKill s₀ := (Reach.boot boot_ticking).stepsIf (fun _ _ _ => of_decide_eq_true) hs₀
  have hr₂ : Sleeps NoRemoteKill ⟨0, by decide⟩ 4 s₀ s₂ :=
    (Sleeps.call hreach hcur ⟨trivial, nofun⟩ ⟨hen, hs₁⟩).step (a := .call (.do_sleep 60)) ⟨trivial, nofun⟩ ⟨hen₁, hs₂⟩
  have hr : Sleeps NoRemoteKill ⟨0, by decide⟩ 4 s₀ s := hr₂.step (a := .timer) (noRemoteKill_of_plain rfl) ⟨hen₂, hs⟩
  have hreach₂ : Reach NoRemoteKill s₂ :=
    (hreach.step (a := .call (.do_sleep 4)) ⟨trivial, nofun⟩ ⟨hen, hs₁⟩).step (a := .call (.do_sleep 60))
      ⟨trivial, nofun⟩ ⟨hen₁, hs₂⟩
  obtain ⟨Q, hrep, -⟩ := hreach₂.sound fun _ _ _ hp => hp
  have hexact := sleep_queue_exact { s₂.mem with clock := fun _ => 5 } Q s₂.dev 5 ⟨0, by decide⟩ 4 s₀ s 0
  obtain ⟨m, L, Q', he, hrep', hw⟩ := hexact.1 hrep fun _ => rfl
  have hfirst : (s₂.mem.pcb ⟨0, by decide⟩).wakeup_time = 4 := hfirst
  have hsecond : (s₂.mem.pcb ⟨1, by decide⟩).wakeup_time = 62 := hsecond
  refine ⟨s₀, s₂, s, hfirst, hsecond, ⟨m, Q', L, he, hrep', ?_, ?_⟩, hcur', hexact.2 hr (fun n n' hn => ?_) ?_ hcur'⟩
  · rw [hw.asleep, ← hrep.eq_of_ring hsleep nofun]
    simp [hfirst, hsecond]
  · rw [hw.awake, ← hrep.eq_of_ring hsleep nofun, ← hrep.eq_of_ring hready nofun]
    simp [hfirst, hsecond]
  all_goals rw [hs₀, Option.map_some, Option.some.injEq] at hclock
  · rw [hclock, UInt64.le_iff_toNat_le, UInt64.toNat_ofNat', UInt64.toNat_ofNat']
    omega
  · rw [hclock]
    decide

/-- Three processes; the first kills the second, which the other hart is running, and starts another, which
gets its slot. The killed one notices nothing and sleeps, and its slot is in two queues. -/
def sharedSlot : List (Hart × Action) :=
  [(0, .call (.do_taskset_exec ⟨[], length_nil_lt⟩ 3)), (0, .call (.do_taskset_exec ⟨[], length_nil_lt⟩ 3)),
    (0, .call (.do_taskset_exec ⟨[], length_nil_lt⟩ 3)), (0, .timer), (1, .timer), (0, .call (.do_kill 2)),
    (0, .call (.do_taskset_exec ⟨[], length_nil_lt⟩ 1)), (1, .call (.do_sleep 1))]

/-- Then the third process sleeps for five seconds. It comes to stand behind the shared slot, in
`ready_queue` as in `sleep_queue`, and is switched to at once. -/
theorem sleep_queue_fails : ¬ ∀ (i : Slot) (t : UInt32) (s₀ s : Machine) (h : Hart),
    Sleeps (fun m _ a => a.Valid m) i t s₀ s →
    (∀ n n', n ≤ n' → s₀.mem.clock n ≤ s₀.mem.clock n') → (s₀.mem.clock 0).toNat + t.toNat < 2 ^ 64 →
    s.mem.current_running h = some i → Rested i t s₀ s := by
  intro hall
  have hclock : (stepsIf (fun m _ a => decide (a.Valid m)) sharedSlot .start).map (fun s => s.mem.clock) =
    some fun _ => 0 := by cbv
  have hrun : (stepsIf (fun m _ a => decide (a.Valid m)) sharedSlot .start).bind
      (fun s => (exec pointers (act 1 (.call (.do_sleep 5))) s).map fun r =>
      decide (Enabled s.mem 1 (.call (.do_sleep 5)) ∧ s.mem.current_running 1 = some ⟨2, by decide⟩ ∧
        r.2.mem.current_running 1 = some ⟨2, by decide⟩ ∧ .ended ⟨2, by decide⟩ ∉ r.2.mem.log.drop s.mem.log.length)) =
        some true := by
    decide +kernel
  obtain ⟨s₀, hs₀, hrun⟩ := Option.bind_eq_some_iff.mp hrun
  obtain ⟨⟨⟨⟩, s⟩, hs, hrun⟩ := Option.map_eq_some_iff.mp hrun
  obtain ⟨hen, hcur, hcur', hended⟩ := of_decide_eq_true hrun
  rw [hs₀, Option.map_some, Option.some.injEq] at hclock
  have hreach : Reach (fun m _ a => a.Valid m) s₀ :=
    (Reach.boot boot_start).stepsIf (fun _ _ _ => of_decide_eq_true) hs₀
  rcases hall _ 5 s₀ s 1 (.call hreach hcur trivial ⟨hen, hs⟩) (fun _ _ _ => by rw [hclock]; exact UInt64.le_refl _)
      (by rw [hclock]; decide) hcur' with he | ⟨n, -, hn⟩
  · exact hended he
  · have hlt : ¬ (0 : UInt64).toNat + (5 : UInt32).toNat ≤ (0 : UInt64).toNat := by decide
    rw [hclock] at hn
    exact hlt hn

end OsLab.Sched
