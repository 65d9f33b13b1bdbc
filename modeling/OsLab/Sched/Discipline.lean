import OsLab.Sched.Effects
import OsLab.Sched.Queues

/-!
# The discipline of the queues

A task is in the queue that its status says: `TASK_READY` in `ready_queue`, `TASK_BLOCKED` in one
waiting queue, otherwise in none. `Disc` is this invariant, about the statuses, the queues and the
running tasks only; it does not say which of the many functions moves a task. All of them do it in
one way, `Queues.move`: the task leaves the queue it is in and is appended to another, or to none.
One lemma, `Disc.move`, covers them all.

Why a task may wait in a queue is its `Reason`: the mutex is locked, the process lives, the message
does not fit. `Waits` says that every waiting task has its reason.
-/

namespace OsLab.Sched

open Lib ProgM

/-- The status of the tasks in a queue. -/
def Queue.status (q : Queue) : TaskStatus := if q = .ready_queue then .TASK_READY else .TASK_BLOCKED

/-- Task `i` leaves its queue and goes to the tail of `t`, if any. -/
def Queues.move (Q : Queues) (i : Slot) (t : Option Queue) : Queues :=
  { Q with tasks := fun q => (Q q).erase i ++ if t = some q then [i] else [] }

/-- Statuses, queues and running tasks go together. -/
structure Disc (st : Slot → TaskStatus) (Q : Queues) (cur : Hart → Option Slot) : Prop where
  nodup : ∀ q, (Q q).Nodup
  disjoint : ∀ {i q q'}, i ∈ Q q → i ∈ Q q' → q = q'
  status : ∀ {i q}, i ∈ Q q → st i = q.status
  queued : ∀ {i}, st i = .TASK_READY ∨ st i = .TASK_BLOCKED → ∃ q, i ∈ Q q
  run : ∀ {i}, st i = .TASK_RUNNING → ∃ h, cur h = some i
  excl : ∀ {h h' i}, cur h = some i → cur h' = some i → h = h'

section Moves

variable {Q : Queues} {i j : Slot} {t : Option Queue} {q : Queue}

theorem mem_move (hn : ∀ q, (Q q).Nodup) : j ∈ Q.move i t q ↔ (j ≠ i ∧ j ∈ Q q) ∨ (j = i ∧ t = some q) := by
  show j ∈ (Q q).erase i ++ _ ↔ _
  rw [List.mem_append, (hn q).mem_erase_iff]
  refine or_congr_right ?_
  split
  · next h => simp [h]
  · next h => simp [h]

theorem move_free (hf : Q.Free i) : Q.move i (some q) = { Q with tasks := Function.update Q.tasks q (Q q ++ [i]) } := by
  rw [Queues.move]
  congr 1
  funext q'
  rw [List.erase_of_not_mem (hf q')]
  by_cases h : q' = q
  · subst h
    simp
  · rw [if_neg (by simpa using Ne.symm h), Function.update_of_ne h, List.append_nil]

theorem move_none : Q.move i none = { Q with tasks := fun q => (Q q).erase i } := by
  simp [Queues.move]

theorem free_move (hn : ∀ q, (Q q).Nodup) : (Q.move i none).Free i := by
  intro q hq
  rcases (mem_move hn).mp hq with ⟨h, -⟩ | ⟨-, h⟩
  · exact h rfl
  · cases h

theorem move_move (hn : ∀ q, (Q q).Nodup) : (Q.move i none).move i t = Q.move i t := by
  have : ∀ q, i ∉ (Q q).erase i := fun q h => ((hn q).mem_erase_iff.mp h).1 rfl
  simp [Queues.move, List.erase_of_not_mem (this _)]

theorem nodup_move (hn : ∀ q, (Q q).Nodup) (q : Queue) : (Q.move i t q).Nodup := by
  show ((Q q).erase i ++ _).Nodup
  refine List.nodup_append.mpr ⟨(hn q).erase i, ?_, ?_⟩
  · split
    · exact List.nodup_singleton i
    · exact List.nodup_nil
  · intro a ha b hb hab
    subst hab
    split at hb
    · rw [List.mem_singleton.mp hb] at ha
      exact (((hn q).mem_erase_iff).mp ha).1 rfl
    · cases hb

theorem disjoint_move (hn : ∀ q, (Q q).Nodup)
    (hd : ∀ i q q', i ∈ Q q → i ∈ Q q' → q = q') (q q' : Queue) (hj : j ∈ Q.move i t q)
    (hj' : j ∈ Q.move i t q') : q = q' := by
  rcases (mem_move hn).mp hj with ⟨h1, h2⟩ | ⟨h1, h2⟩ <;> rcases (mem_move hn).mp hj' with ⟨h3, h4⟩ | ⟨h3, h4⟩
  · exact hd j q q' h2 h4
  · exact absurd h3 h1
  · exact absurd h1 h3
  · exact Option.some.inj (h2.symm.trans h4)

end Moves

namespace Disc

variable {st : Slot → TaskStatus} {Q : Queues} {cur : Hart → Option Slot} {i j : Slot} {q : Queue} {h : Hart}

theorem free (d : Disc st Q cur) (hr : st i ≠ .TASK_READY) (hb : st i ≠ .TASK_BLOCKED) : Q.Free i := by
  intro q hq
  have := d.status hq
  rw [Queue.status] at this
  split at this
  · exact hr this
  · exact hb this

theorem free_running (d : Disc st Q cur) (hr : st i = .TASK_RUNNING) : Q.Free i :=
  d.free (by rw [hr]; decide) (by rw [hr]; decide)

theorem free_exited (d : Disc st Q cur) (hr : st i = .TASK_EXITED) : Q.Free i :=
  d.free (by rw [hr]; decide) (by rw [hr]; decide)

theorem ready_iff (d : Disc st Q cur) : st i = .TASK_READY ↔ i ∈ Q .ready_queue := by
  constructor
  · intro hr
    obtain ⟨q, hq⟩ := d.queued (Or.inl hr)
    have := d.status hq
    rw [hr, Queue.status] at this
    split at this
    · next e => rwa [e] at hq
    · cases this
  · intro hi
    rw [d.status hi]
    rfl

theorem blocked_iff (d : Disc st Q cur) : st i = .TASK_BLOCKED ↔ ∃ q, q ≠ .ready_queue ∧ i ∈ Q q := by
  constructor
  · intro hb
    obtain ⟨q, hq⟩ := d.queued (Or.inr hb)
    refine ⟨q, ?_, hq⟩
    rintro rfl
    rw [d.ready_iff.mpr hq] at hb
    cases hb
  · rintro ⟨q, hq, hi⟩
    rw [d.status hi, Queue.status, if_neg hq]

/-- A task changes its queue and its status. -/
theorem move (d : Disc st Q cur) {t : Option Queue} {s : TaskStatus} (ht : ∀ q, t = some q → s = q.status)
    (hn : t = none → s ≠ .TASK_READY ∧ s ≠ .TASK_BLOCKED) (hr : s = .TASK_RUNNING → ∃ h, cur h = some i) :
    Disc (Function.update st i s) (Q.move i t) cur := by
  refine ⟨nodup_move d.nodup, fun {_ _ _} => disjoint_move d.nodup (fun _ _ _ => d.disjoint) _ _, ?_, ?_, ?_, d.excl⟩
  · intro j q hj
    rcases (mem_move d.nodup).mp hj with ⟨h1, h2⟩ | ⟨rfl, h2⟩
    · rw [Function.update_of_ne h1]
      exact d.status h2
    · rw [Function.update_self]
      exact ht q h2
  · intro j hj
    by_cases hji : j = i
    · subst hji
      rw [Function.update_self] at hj
      cases t with
      | none =>
        obtain ⟨h1, h2⟩ := hn rfl
        rcases hj with hj | hj
        · exact absurd hj h1
        · exact absurd hj h2
      | some q => exact ⟨q, (mem_move d.nodup).mpr (Or.inr ⟨rfl, rfl⟩)⟩
    · rw [Function.update_of_ne hji] at hj
      obtain ⟨q, hq⟩ := d.queued hj
      exact ⟨q, (mem_move d.nodup).mpr (Or.inl ⟨hji, hq⟩)⟩
  · intro j hj
    by_cases hji : j = i
    · subst hji
      rw [Function.update_self] at hj
      exact hr hj
    · rw [Function.update_of_ne hji] at hj
      exact d.run hj

/-- A hart changes its running task. -/
theorem setCur (d : Disc st Q cur) {c : Option Slot} (hold : ∀ j, cur h = some j → st j ≠ .TASK_RUNNING)
    (hnew : ∀ j, c = some j → ∀ h', h' ≠ h → cur h' ≠ some j) : Disc st Q (Function.update cur h c) := by
  refine ⟨d.nodup, d.disjoint, d.status, d.queued, ?_, ?_⟩
  · intro j hj
    obtain ⟨h', hh⟩ := d.run hj
    have hne : h' ≠ h := by
      rintro rfl
      exact hold j hh hj
    exact ⟨h', by rwa [Function.update_of_ne hne]⟩
  · intro h₁ h₂ j h1 h2
    by_cases e₁ : h₁ = h <;> by_cases e₂ : h₂ = h
    · rw [e₁, e₂]
    · subst e₁
      rw [Function.update_self] at h1
      rw [Function.update_of_ne e₂] at h2
      exact absurd h2 (hnew j h1 h₂ e₂)
    · subst e₂
      rw [Function.update_self] at h2
      rw [Function.update_of_ne e₁] at h1
      exact absurd h1 (hnew j h2 h₁ e₁)
    · rw [Function.update_of_ne e₁] at h1
      rw [Function.update_of_ne e₂] at h2
      exact d.excl h1 h2

end Disc

/-! ### States -/

/-- The kernel's variables with the queues as lists. -/
abbrev St := Conf Kernel Queues


/-- `Disc` of a state. -/
def St.Disc (c : St) : Prop := Sched.Disc c.mem.status c.dev c.mem.current_running

/-- Why task `i` may wait in `q`. -/
def Reason (s : Kernel) (q : Queue) (i : Slot) : Prop :=
  match q with
  | .ready_queue => True
  | .sleep_queue => True
  | .wait j => s.status j ≠ .TASK_EXITED
  | .mutex k => (s.mlocks k).locked = true
  | .barrier k => (s.barrier k).active = true
  | .condition k => (s.condition k).active = true
  | .full k => (s.mailbox k).active = true ∧
    ∃ len n, s.resume i = .send k len n ∧ (MAX_MBOX_LENGTH : ℤ) < (s.mailbox k).buffer_idx + len
  | .empty k => (s.mailbox k).active = true ∧ ∃ len n, s.resume i = .recv k len n ∧ (s.mailbox k).buffer_idx < len

/-- Every task in a queue has its reason, except perhaps in the queues `X`. -/
def St.WaitsBut (c : St) (X : Queue → Prop) : Prop := ∀ q i, ¬ X q → i ∈ c.dev q → Reason c.mem q i

/-- Every task in a queue has its reason. -/
def St.Waits (c : St) : Prop := ∀ q i, i ∈ c.dev q → Reason c.mem q i

/-- The mailbox that a suspended send or receive is about. -/
def Resume.mailbox : Resume → Option Handle
  | .send k _ _ => some k
  | .recv k _ _ => some k
  | _ => none

/-- Sends and receives under way are on active mailboxes. -/
def Kernel.Pend (s : Kernel) : Prop :=
  ∀ i k, s.status i ≠ .TASK_EXITED → (s.resume i).mailbox = some k → (s.mailbox k).active = true

/-- The state in the middle of a kernel entry of hart `h`: the other hart runs its task in user mode. -/
structure Mid (h : Hart) (c : St) : Prop where
  disc : c.Disc
  up : ∀ i, c.mem.status i ≠ .TASK_EXITED → c.dev.up i
  waits : c.Waits
  pend : c.mem.Pend
  others : ∀ h', h' ≠ h → ∀ i, c.mem.current_running h' = some i → c.mem.status i = .TASK_RUNNING

/-- The state between two steps. -/
structure Inv (c : St) : Prop where
  disc : c.Disc
  up : ∀ i, c.mem.status i ≠ .TASK_EXITED → c.dev.up i
  waits : c.Waits
  pend : c.mem.Pend
  cur : ∀ h i, c.mem.current_running h = some i → c.mem.status i = .TASK_RUNNING

theorem Inv.mid {c : St} (hc : Inv c) (h : Hart) : Mid h c := ⟨hc.disc, hc.up, hc.waits, hc.pend, fun h' _ => hc.cur h'⟩

/-! ### Waking tasks -/

/-- `c'` comes from `c` by making blocked tasks ready. Mutexes may change. -/
structure Frame (c c' : St) : Prop where
  current : c'.mem.current_running = c.mem.current_running
  resume : c'.mem.resume = c.mem.resume
  barrier : c'.mem.barrier = c.mem.barrier
  condition : c'.mem.condition = c.mem.condition
  mailbox : c'.mem.mailbox = c.mem.mailbox
  pid : ∀ i, (c'.mem.pcb i).pid = (c.mem.pcb i).pid
  status : ∀ i, c'.mem.status i = c.mem.status i ∨ (c.mem.status i = .TASK_BLOCKED ∧ c'.mem.status i = .TASK_READY)
  sub : ∀ q i, q ≠ .ready_queue → i ∈ c'.dev q → i ∈ c.dev q
  up : c'.dev.up = c.dev.up
  disc : c'.Disc

namespace Frame

variable {c c' d : St} {h : Hart}

theorem refl (hd : c.Disc) : Frame c c :=
  ⟨rfl, rfl, rfl, rfl, rfl, fun _ => rfl, fun _ => Or.inl rfl, fun _ _ _ hi => hi, rfl, hd⟩

theorem trans (f : Frame c c') (g : Frame c' d) : Frame c d := by
  refine ⟨g.current.trans f.current, g.resume.trans f.resume, g.barrier.trans f.barrier, g.condition.trans f.condition,
    g.mailbox.trans f.mailbox, fun i => (g.pid i).trans (f.pid i), fun i => ?_,
    fun q i hq hi => f.sub q i hq (g.sub q i hq hi), g.up.trans f.up, g.disc⟩
  rcases g.status i with e | ⟨e, e'⟩
  · rw [e]
    exact f.status i
  · rcases f.status i with e₁ | ⟨-, e₁⟩
    · exact Or.inr ⟨by rw [← e₁]; exact e, e'⟩
    · rw [e₁] at e
      cases e

theorem exited_iff (f : Frame c c') {i : Slot} : c'.mem.status i = .TASK_EXITED ↔ c.mem.status i = .TASK_EXITED := by
  rcases f.status i with e | ⟨e, e'⟩
  · rw [e]
  · rw [e, e']
    decide

theorem running_iff (f : Frame c c') {i : Slot} : c'.mem.status i = .TASK_RUNNING ↔ c.mem.status i = .TASK_RUNNING := by
  rcases f.status i with e | ⟨e, e'⟩
  · rw [e]
  · rw [e, e']
    decide

theorem pend (f : Frame c c') (hp : c.mem.Pend) : c'.mem.Pend := by
  intro i k hs hr
  rw [f.resume] at hr
  rw [f.mailbox]
  exact hp i k (fun e => hs (f.exited_iff.mpr e)) hr

theorem isUp (f : Frame c c') (hu : ∀ i, c.mem.status i ≠ .TASK_EXITED → c.dev.up i) (i : Slot)
    (hi : c'.mem.status i ≠ .TASK_EXITED) : c'.dev.up i := by
  rw [f.up]
  exact hu i fun e => hi (f.exited_iff.mpr e)

theorem mid (f : Frame c c') (hm : Mid h c) (hw : c'.Waits) : Mid h c' := by
  refine ⟨f.disc, f.isUp hm.up, hw, f.pend hm.pend, fun h' hne i hi => ?_⟩
  rw [f.current] at hi
  exact f.running_iff.mpr (hm.others h' hne i hi)

theorem inv (f : Frame c c') (hc : Inv c) (hw : c'.Waits) : Inv c' := by
  refine ⟨f.disc, f.isUp hc.up, hw, f.pend hc.pend, fun h i hi => ?_⟩
  rw [f.current] at hi
  exact f.running_iff.mpr (hc.cur h i hi)

/-- With the same mutexes, reasons stay. -/
theorem reason (f : Frame c c') (hm : c'.mem.mlocks = c.mem.mlocks) {q : Queue} {i : Slot} (hr : Reason c.mem q i) :
    Reason c'.mem q i := by
  cases q with
  | ready_queue => trivial
  | sleep_queue => trivial
  | wait j => exact fun e => hr (f.exited_iff.mp e)
  | mutex k => simpa only [Reason, hm] using hr
  | barrier k => simpa only [Reason, f.barrier] using hr
  | condition k => simpa only [Reason, f.condition] using hr
  | full k => simpa only [Reason, f.mailbox, f.resume] using hr
  | empty k => simpa only [Reason, f.mailbox, f.resume] using hr

theorem waitsBut (f : Frame c c') (hm : c'.mem.mlocks = c.mem.mlocks) {X : Queue → Prop} (hw : c.WaitsBut X) :
    c'.WaitsBut X := by
  intro q i hX hi
  by_cases hq : q = .ready_queue
  · subst hq
    trivial
  · exact f.reason hm (hw q i hX (f.sub q i hq hi))

theorem waits (f : Frame c c') (hm : c'.mem.mlocks = c.mem.mlocks) (hw : c.Waits) : c'.Waits := by
  intro q i hi
  exact f.waitsBut (X := fun _ => False) hm (fun q i _ hi => hw q i hi) q i not_false hi

end Frame

/-- A queue whose tasks have lost their reason is emptied. -/
theorem St.WaitsBut.waits {c : St} {q : Queue} (hw : c.WaitsBut (· = q)) (hq : c.dev q = []) : c.Waits := by
  intro p i hi
  refine hw p i ?_ hi
  rintro rfl
  rw [hq] at hi
  cases hi

end OsLab.Sched
