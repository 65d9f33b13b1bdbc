import OsLab.Sched.Model

/-!
# The queues as lists

The list operations mean something simpler than pointer assignments: the kernel's queues are lists
of tasks, and an operation appends a task, erases it, or looks at the next one. `listed` is that
meaning. It answers only where the pointers make sense: a task that is put into a queue is in no
queue yet, a task that is taken out is in one, and a queue that is initialised is empty. The queue
`pcb[i].block_queue` is not initialised when the kernel starts but when slot `i` is first used, and
nothing may touch it before.

`Repr Q L` says that the pointers `L` hold the lists `Q`. Whatever a program does on lists it does on
pointers as well (`exec_pointers`), so all later reasoning is about lists.
-/

namespace OsLab.Sched

open Lib ProgM

/-- The queues as lists. -/
structure Queues where
  /-- The tasks of every queue, in order. -/
  tasks : Queue → List Slot
  /-- The slots whose `block_queue` has been initialised. -/
  up : Slot → Prop

instance : CoeFun Queues fun _ => Queue → List Slot := ⟨Queues.tasks⟩

/-- The queue has been initialised. -/
def Queues.Up (Q : Queues) (q : Queue) : Prop := ∀ i, q = .wait i → Q.up i

/-- Task `i` is in no queue. -/
def Queues.Free (Q : Queues) (i : Slot) : Prop := ∀ q, i ∉ Q q

/-- The first node of what is left of a queue. -/
def first (q : Queue) : List Slot → Node
  | [] => .head q
  | i :: _ => .task i

/-- What comes after a node of the queue `q` with the tasks `l`. -/
def follower (q : Queue) (l : List Slot) : Node → Option Node
  | .head q' => if q' = q then some (first q l) else none
  | .task i => if i ∈ l then some (first q (l.dropWhile (· ≠ i)).tail) else none

open Classical in
/-- The list operations on lists. -/
noncomputable def listed : Handler Op Op.Res Queues
  | .next q n, Q => if Q.Up q then (follower q (Q q) n).map (·, Q) else none
  | .linked i, Q => some (decide (¬ Q.Free i), Q)
  | .enqueue i q, Q =>
    if Q.Free i ∧ Q.Up q then some ((), { Q with tasks := Function.update Q.tasks q (Q q ++ [i]) }) else none
  | .unlink i, Q => if Q.Free i then none else some ((), { Q with tasks := fun q => (Q q).erase i })
  | .init q, Q => if Q q = [] then some ((), { Q with up := fun i => q = .wait i ∨ Q.up i }) else none
  | .processPages .., Q => some ((), Q)
  | .threadPages .., Q => some ((), Q)
  | .releasePages .., Q => some ((), Q)

/-- The pointers `L` hold the queues `Q`. -/
structure Repr (Q : Queues) (L : Links Node) : Prop where
  ring : ∀ q, Q.Up q → L.Ring (.head q) ((Q q).map .task)
  down : ∀ i, ¬ Q.up i → Q (.wait i) = []
  raw : ∀ i, ¬ Q.up i → L.next (.head (.wait i)) = none ∧ L.prev (.head (.wait i)) = none
  disjoint : ∀ i q q', i ∈ Q q → i ∈ Q q' → q = q'
  null : ∀ i, Q.Free i → L.next (.task i) = none

/-- Nodes of one circle are tasks and its head. -/
theorem task_mem_iff {i : Slot} {q : Queue} {l : List Slot} : Node.task i ∈ Node.head q :: l.map .task ↔ i ∈ l := by
  simp

/-- The four assignments of `enqueue` on the circle that they are made for. -/
theorem enqueue_ring {L : Links Node} {q : Queue} {l : List Slot}
    {i : Slot} (r : L.Ring (.head q) (l.map .task)) (hi : i ∉ l) :
    ∃ L', pointers (.enqueue i q) L = some ((), L') ∧ L'.Ring (.head q) ((l ++ [i]).map .task) ∧
      ∀ n, n ∉ Node.head q :: .task i :: l.map .task → L'.next n = L.next n ∧ L'.prev n = L.prev n := by
  have hmem : Node.task i ∉ Node.head q :: l.map .task := fun hm => hi (task_mem_iff.mp hm)
  obtain ⟨L', hL', hring, hframe⟩ := r.insertTail hmem
  have hlast : (l.map Node.task).getLastD (.head q) ≠ .task i := by
    intro e
    refine hmem (e ▸ ?_)
    rcases List.eq_nil_or_concat (l.map Node.task) with e | ⟨l', b, e⟩
    · simp [e]
    · simp [e]
  refine ⟨L', ?_, by rwa [List.map_append], hframe⟩
  simp only [Links.insertTail, r.prev_head, Option.bind_eq_bind, Option.bind_some, Option.some.injEq] at hL'
  rw [← hL']
  simp only [pointers, r.prev_head, Option.bind_eq_bind, Option.bind_some, Links.setNext, Links.setPrev]
  rw [Function.update_comm hlast]

/-- The four assignments of `unlink` on the circle that the task is in. -/
theorem unlink_ring {L : Links Node} {q : Queue} {l₁ l₂ : List Slot} {i : Slot}
    (r : L.Ring (.head q) ((l₁ ++ i :: l₂).map .task)) :
    ∃ L', pointers (.unlink i) L = some ((), L') ∧ L'.Ring (.head q) ((l₁ ++ l₂).map .task) ∧ L'.next (.task i) = none ∧
      ∀ n, n ∉ Node.head q :: (l₁ ++ i :: l₂).map .task → L'.next n = L.next n ∧ L'.prev n = L.prev n := by
  have hnd : i ∉ l₁ ++ l₂ := by
    have h := r.nodup.of_map
    rw [List.nodup_middle, List.nodup_cons] at h
    exact h.1
  rw [List.map_append, List.map_cons] at r
  obtain ⟨L', hL', hring, hframe⟩ := r.unlink
  obtain ⟨xs, p, n, ys, hp, hn, hprev, hnext, -, -⟩ := r.split
  have hpi : p ≠ .task i := by
    rintro rfl
    have hm : Node.task i ∈ Node.head q :: l₁.map .task := by
      rw [hp]
      exact List.mem_append_right _ (List.mem_singleton.mpr rfl)
    exact hnd (List.mem_append_left _ (task_mem_iff.mp hm))
  have hni : n ≠ .task i := by
    rintro rfl
    have hm : Node.task i ∈ l₂.map .task ++ [.head q] := by
      rw [hn]
      exact List.mem_cons_self ..
    rw [List.mem_append, List.mem_singleton, or_comm, ← List.mem_cons] at hm
    exact hnd (List.mem_append_right _ (task_mem_iff.mp hm))
  simp only [Links.unlink, hprev, hnext, Option.bind_eq_bind, Option.bind_some, Option.some.injEq] at hL'
  refine ⟨L', ?_, by rwa [List.map_append], ?_, by rwa [List.map_append, List.map_cons]⟩
  · rw [← hL']
    simp only [pointers, hprev, hnext, Option.bind_eq_bind, Option.bind_some, Links.setNext, Links.setPrev]
    rw [Function.update_comm hpi, Function.update_comm hni]
  · rw [← hL']
    simp [Links.setNext, Links.setPrev]

/-- `->next` of a task of a circle. -/
theorem next_task {L : Links Node} {q : Queue} {l₁ l₂ : List Slot}
    {i : Slot} (r : L.Ring (.head q) ((l₁ ++ i :: l₂).map .task)) :
    L.next (.task i) = some (first q l₂) := by
  rw [List.map_append, List.map_cons] at r
  obtain ⟨xs, p, n, ys, -, hn, -, hnext, -, -⟩ := r.split
  rw [hnext]
  cases l₂ with
  | nil => simp_all [first]
  | cons j l₂ => simp_all [first]

namespace Repr

variable {Q : Queues} {L : Links Node}

/-- A queue with tasks in it has been initialised. -/
theorem up_of_mem (h : Repr Q L) {i : Slot} {q : Queue} (hi : i ∈ Q q) : Q.Up q := by
  rintro j rfl
  by_contra hj
  rw [h.down j hj] at hi
  cases hi

theorem nodup (h : Repr Q L) (q : Queue) : (Q q).Nodup := by
  cases hl : Q q with
  | nil => exact List.nodup_nil
  | cons i l =>
    have hup := h.up_of_mem (q := q) (i := i) (by rw [hl]; exact List.mem_cons_self ..)
    rw [← hl]
    exact ((h.ring q hup).nodup).of_map _

theorem task_inj {i j : Slot} (h : Node.task i = .task j) : i = j := by
  injection h

/-- The pointers hold one list. -/
theorem eq_of_ring (h : Repr Q L) {q : Queue} {l : List Slot}
    (hl : L.Ring (.head q) (l.map .task)) (hq : Q.Up q) : l = Q q :=
  List.map_injective_iff.mpr (fun _ _ => task_inj) (hl.unique (h.ring q hq))

/-- The nodes of another queue. -/
theorem notMem_other (h : Repr Q L) {q q' : Queue} (hq : q' ≠ q)
    {n : Node} (hn : n ∈ Node.head q' :: (Q q').map .task) :
    n ∉ Node.head q :: (Q q).map .task := by
  intro hn'
  simp only [List.mem_cons, List.mem_map] at hn hn'
  rcases hn with rfl | ⟨i, hi, rfl⟩
  · rcases hn' with e | ⟨j, -, e⟩
    · injection e with e
      exact hq e
    · cases e
  · rcases hn' with e | ⟨j, hj, e⟩
    · cases e
    · obtain rfl := task_inj e
      exact hq (h.disjoint _ _ _ hi hj)

theorem ne_of_free {i : Slot} (h : Q.Free i) {q : Queue} {n : Node} (hn : n ∈ Node.head q :: (Q q).map .task) :
    n ≠ .task i := by
  rintro rfl
  simp only [List.mem_cons, List.mem_map] at hn
  rcases hn with e | ⟨j, hj, e⟩
  · cases e
  · obtain rfl := task_inj e
    exact h q hj

theorem first_eq (q : Queue) (l : List Slot) : first q l = (l.map Node.task).headD (.head q) := by
  cases l <;> rfl

/-- What is left of a list after one of its elements. -/
theorem tail_dropWhile {l₁ l₂ : List Slot} {i : Slot} (hi : i ∉ l₁) :
    ((l₁ ++ i :: l₂).dropWhile (· ≠ i)).tail = l₂ := by
  rw [List.dropWhile_append_of_pos, List.dropWhile_cons_of_neg (by simp), List.tail_cons]
  intro j hj
  have : j ≠ i := by
    rintro rfl
    exact hi hj
  simpa using this

/-- `->next` finds the next task. -/
theorem next (h : Repr Q L) {q : Queue} (hup : Q.Up q) {n m : Node} (hf : follower q (Q q) n = some m) :
    L.next n = some m := by
  cases n with
  | head q' =>
    simp only [follower, Option.ite_none_right_eq_some, Option.some.injEq] at hf
    obtain ⟨rfl, rfl⟩ := hf
    rw [first_eq]
    exact (h.ring q' hup).next_head
  | task i =>
    simp only [follower, Option.ite_none_right_eq_some, Option.some.injEq] at hf
    obtain ⟨hi, rfl⟩ := hf
    obtain ⟨l₁, l₂, hl, hnot⟩ := List.eq_append_cons_of_mem hi
    have hr := h.ring q hup
    rw [hl] at hr
    rw [hl, tail_dropWhile hnot]
    exact next_task hr

theorem null_iff (h : Repr Q L) (i : Slot) : (L.next (.task i)).isSome = true ↔ ¬ Q.Free i := by
  constructor
  · intro hs hf
    rw [h.null i hf] at hs
    cases hs
  · intro hf
    rw [Queues.Free, not_forall] at hf
    obtain ⟨q, hq⟩ := hf
    have : follower q (Q q) (.task i) = some (first q ((Q q).dropWhile (· ≠ i)).tail) := by
      rw [follower, if_pos (not_not.mp hq)]
    rw [h.next (h.up_of_mem (not_not.mp hq)) this]
    rfl

/-- Pointers that agree on the nodes of a queue hold the same queue. -/
theorem ring_congr (h : Repr Q L) {L' : Links Node} {q q' : Queue} (hq : q' ≠ q) (hup : Q.Up q') {S : List Node}
    (hS : ∀ n ∈ S, n ∈ Node.head q :: (Q q).map .task ∨ ∃ i, n = .task i ∧ i ∉ Q q')
    (hL : ∀ n, n ∉ S → L'.next n = L.next n ∧ L'.prev n = L.prev n) : L'.Ring (.head q') ((Q q').map .task) := by
  have hn : ∀ n ∈ Node.head q' :: (Q q').map .task, n ∉ S := by
    intro n hn hs
    rcases hS n hs with hm | ⟨i, rfl, hi⟩
    · exact h.notMem_other hq hn hm
    · simp only [List.mem_cons, List.mem_map] at hn
      rcases hn with e | ⟨j, hj, e⟩
      · cases e
      · obtain rfl := task_inj e
        exact hi hj
  exact (h.ring q' hup).congr (fun n h' => (hL n (hn n h')).1) (fun n h' => (hL n (hn n h')).2)

/-- The four assignments that put a task at the tail of a queue. -/
theorem enqueue (h : Repr Q L) {i : Slot} (hi : Q.Free i) {q : Queue} (hup : Q.Up q) :
    ∃ L', pointers (.enqueue i q) L = some ((), L') ∧
      Repr { Q with tasks := Function.update Q.tasks q (Q q ++ [i]) } L' := by
  obtain ⟨L', he, hring, hframe⟩ := enqueue_ring (h.ring q hup) (hi q)
  refine ⟨L', he, ?_, ?_, ?_, ?_, ?_⟩
  · intro q' hup'
    show L'.Ring _ ((Function.update Q.tasks q (Q q ++ [i]) q').map .task)
    by_cases hq : q' = q
    · subst hq
      rw [Function.update_self]
      exact hring
    · rw [Function.update_of_ne hq]
      refine h.ring_congr hq hup' (S := .head q :: .task i :: (Q q).map .task) ?_ hframe
      intro n hn
      rw [List.mem_cons, List.mem_cons] at hn
      rcases hn with rfl | rfl | hn
      · exact Or.inl (List.mem_cons_self ..)
      · exact Or.inr ⟨i, rfl, hi q'⟩
      · exact Or.inl (List.mem_cons_of_mem _ hn)
  · intro j hj
    have hne : Queue.wait j ≠ q := fun e => hj (hup j e.symm)
    show Function.update Q.tasks q (Q q ++ [i]) (.wait j) = []
    rw [Function.update_of_ne hne]
    exact h.down j hj
  · intro j hj
    have hout : Node.head (.wait j) ∉ Node.head q :: .task i :: (Q q).map .task := by
      simp only [List.mem_cons, List.mem_map, not_or]
      refine ⟨fun e => ?_, nofun, by rintro ⟨x, -, e⟩; cases e⟩
      injection e with e
      exact hj (hup j e.symm)
    rw [(hframe _ hout).1, (hframe _ hout).2]
    exact h.raw j hj
  · have hkey : ∀ j p, j ∈ Function.update Q.tasks q (Q q ++ [i]) p → (j ∈ Q p ∧ j ≠ i) ∨ (j = i ∧ p = q) := by
      intro j p hj
      by_cases hp : p = q
      · subst hp
        rw [Function.update_self, List.mem_append, List.mem_singleton] at hj
        rcases hj with hj | rfl
        · refine Or.inl ⟨hj, ?_⟩
          rintro rfl
          exact hi p hj
        · exact Or.inr ⟨rfl, rfl⟩
      · rw [Function.update_of_ne hp] at hj
        refine Or.inl ⟨hj, ?_⟩
        rintro rfl
        exact hi p hj
    intro j p p' hj hj'
    rcases hkey j p hj with ⟨h1, h2⟩ | ⟨h1, h2⟩ <;> rcases hkey j p' hj' with ⟨h3, h4⟩ | ⟨h3, h4⟩
    · exact h.disjoint j p p' h1 h3
    · exact absurd h3 h2
    · exact absurd h1 h4
    · rw [h2, h4]
  · intro j hj
    have hjq : ∀ p, j ∉ Q p := by
      intro p hp
      apply hj p
      show j ∈ Function.update Q.tasks q (Q q ++ [i]) p
      by_cases hpq : p = q
      · subst hpq
        rw [Function.update_self]
        exact List.mem_append_left _ hp
      · rwa [Function.update_of_ne hpq]
    have hji : j ≠ i := by
      rintro rfl
      apply hj q
      show j ∈ Function.update Q.tasks q (Q q ++ [j]) q
      rw [Function.update_self]
      exact List.mem_append_right _ (List.mem_singleton.mpr rfl)
    have hout : Node.task j ∉ Node.head q :: .task i :: (Q q).map .task := by
      simp only [List.mem_cons, List.mem_map, not_or]
      refine ⟨by rintro ⟨⟩, fun e => hji (task_inj e), ?_⟩
      rintro ⟨x, hx, e⟩
      obtain rfl := task_inj e
      exact hjq q hx
    rw [(hframe _ hout).1]
    exact h.null j hjq

/-- The four assignments that take a task out of its queue. -/
theorem unlink (h : Repr Q L) {i : Slot} (hi : ¬ Q.Free i) :
    ∃ L', pointers (.unlink i) L = some ((), L') ∧ Repr { Q with tasks := fun q => (Q q).erase i } L' := by
  rw [Queues.Free, not_forall] at hi
  obtain ⟨q, hq⟩ := hi
  replace hq := not_not.mp hq
  have hother : ∀ q', q' ≠ q → i ∉ Q q' := fun q' hne hi' => hne (h.disjoint i q' q hi' hq)
  obtain ⟨l₁, l₂, hl, hnot⟩ := List.eq_append_cons_of_mem hq
  have herase : (Q q).erase i = l₁ ++ l₂ := by
    rw [hl, List.erase_append_right _ hnot, List.erase_cons_head]
  have hr := h.ring q (h.up_of_mem hq)
  rw [hl] at hr
  obtain ⟨L', he, hring, hnull, hframe⟩ := unlink_ring hr
  have hset : ∀ q', q' ≠ q → (Q q').erase i = Q q' := fun q' hne => List.erase_of_not_mem (hother q' hne)
  refine ⟨L', he, ?_, ?_, ?_, ?_, ?_⟩
  · intro q' hup'
    by_cases hqq : q' = q
    · subst hqq
      show L'.Ring _ (((Q q').erase i).map .task)
      rw [herase]
      exact hring
    · show L'.Ring _ (((Q q').erase i).map .task)
      rw [hset q' hqq]
      refine h.ring_congr hqq hup' (S := .head q :: (l₁ ++ i :: l₂).map .task) ?_ hframe
      intro m hm
      refine Or.inl ?_
      rwa [hl]
  · intro j hj
    show (Q (.wait j)).erase i = []
    rw [h.down j hj, List.erase_nil]
  · intro j hj
    have hout : Node.head (.wait j) ∉ Node.head q :: (l₁ ++ i :: l₂).map .task := by
      intro hm
      simp only [List.mem_cons, List.mem_map] at hm
      rcases hm with e | ⟨x, -, e⟩
      · injection e with e
        exact hj (h.up_of_mem hq j e.symm)
      · cases e
    rw [(hframe _ hout).1, (hframe _ hout).2]
    exact h.raw j hj
  · intro j p p' hj hj'
    exact h.disjoint j p p' (List.mem_of_mem_erase hj) (List.mem_of_mem_erase hj')
  · intro j hj
    by_cases hji : j = i
    · subst hji
      exact hnull
    have hjq : Q.Free j := fun q' hq' => hj q' ((List.mem_erase_of_ne hji).mpr hq')
    have hout : Node.task j ∉ Node.head q :: (l₁ ++ i :: l₂).map .task := by
      intro hm
      apply ne_of_free hjq (q := q) (n := .task j) _ rfl
      rwa [hl]
    rw [(hframe _ hout).1]
    exact h.null j hjq

/-- `q.next = q.prev = &q` of an empty queue. -/
theorem init (h : Repr Q L) {q : Queue} (hq : Q q = []) :
    Repr { Q with up := fun i => q = .wait i ∨ Q.up i } (L.selfLink (.head q)) := by
  refine ⟨fun q' hup => ?_, fun i hi => h.down i fun hu => hi (Or.inr hu), fun i hi => ?_, h.disjoint,
    fun i hi => ?_⟩
  · by_cases hne : q' = q
    · subst hne
      show Links.Ring _ _ ((Q q').map Node.task)
      rw [hq]
      exact Links.Ring.selfLink L _
    · have hup' : Q.Up q' := by
        rintro i rfl
        rcases hup i rfl with e | hu
        · exact absurd e.symm hne
        · exact hu
      refine h.ring_congr hne hup' (S := [.head q]) ?_ ?_
      · intro n hn
        rw [List.mem_singleton] at hn
        subst hn
        exact Or.inl (List.mem_cons_self ..)
      · intro n hn
        rw [List.mem_singleton] at hn
        simp [Links.selfLink, Links.setNext, Links.setPrev, hn]
  · have hne : Node.head (.wait i) ≠ .head q := by
      intro e
      injection e with e
      exact hi (Or.inl e.symm)
    simp only [Links.selfLink, Links.setNext, Links.setPrev]
    rw [Function.update_of_ne hne, Function.update_of_ne hne]
    exact h.raw i fun hu => hi (Or.inr hu)
  · simp only [Links.selfLink, Links.setNext, Links.setPrev]
    rw [Function.update_of_ne (by rintro ⟨⟩)]
    exact h.null i hi

end Repr

open Classical in
/-- Each operation does on pointers what it does on lists. -/
theorem pointers_listed (e : Op) (Q : Queues) (L : Links Node) (r : e.Res) (Q' : Queues) (h : Repr Q L)
    (he : listed e Q = some (r, Q')) : ∃ L', pointers e L = some (r, L') ∧ Repr Q' L' := by
  cases e with
  | next q n =>
    simp only [listed, Option.ite_none_right_eq_some] at he
    obtain ⟨hup, he'⟩ := he
    obtain ⟨m, hm, e⟩ := Option.map_eq_some_iff.mp he'
    obtain ⟨rfl, rfl⟩ := Prod.mk.inj e
    have hp : pointers (.next q n) L = (L.next n).map (·, L) := rfl
    rw [hp, h.next hup hm]
    exact ⟨L, rfl, h⟩
  | linked i =>
    obtain ⟨rfl, rfl⟩ := Prod.mk.inj (Option.some.inj he)
    refine ⟨L, ?_, h⟩
    have hb : (L.next (.task i)).isSome = decide (¬ Q.Free i) := by
      rw [Bool.eq_iff_iff, h.null_iff, decide_eq_true_iff]
    show some ((L.next (.task i)).isSome, L) = _
    rw [hb]
  | enqueue i q =>
    simp only [listed, Option.ite_none_right_eq_some, Option.some.injEq] at he
    obtain ⟨⟨hi, hup⟩, e⟩ := he
    obtain ⟨rfl, rfl⟩ := Prod.mk.inj e
    exact h.enqueue hi hup
  | unlink i =>
    simp only [listed, Option.ite_none_left_eq_some, Option.some.injEq] at he
    obtain ⟨hi, e⟩ := he
    obtain ⟨rfl, rfl⟩ := Prod.mk.inj e
    exact h.unlink hi
  | init q =>
    simp only [listed, Option.ite_none_right_eq_some, Option.some.injEq] at he
    obtain ⟨hq, e⟩ := he
    obtain ⟨rfl, rfl⟩ := Prod.mk.inj e
    exact ⟨_, rfl, h.init hq⟩
  | processPages i pid task =>
    obtain ⟨rfl, rfl⟩ := Prod.mk.inj (Option.some.inj he)
    exact ⟨L, rfl, h⟩
  | threadPages i pid thread =>
    obtain ⟨rfl, rfl⟩ := Prod.mk.inj (Option.some.inj he)
    exact ⟨L, rfl, h⟩
  | releasePages i pid =>
    obtain ⟨rfl, rfl⟩ := Prod.mk.inj (Option.some.inj he)
    exact ⟨L, rfl, h⟩

/-- What a program does on lists it does on pointers. -/
theorem exec_pointers {α : Type} (x : SchedM α) {s s' : Kernel} {Q Q' : Queues} {L : Links Node} {a : α} (h : Repr Q L)
    (hx : exec listed x ⟨s, Q⟩ = some (a, ⟨s', Q'⟩)) :
    ∃ L', exec pointers x ⟨s, L⟩ = some (a, ⟨s', L'⟩) ∧ Repr Q' L' :=
  exec_sim listed pointers Repr (fun e Q L r Q' h he => pointers_listed e Q L r Q' h he) x L h hx

end OsLab.Sched
