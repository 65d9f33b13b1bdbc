import OsLab.Lib.Hoare
import OsLab.Sched.Queues

/-!
# The ready queue over time

`watched` runs the kernel on its pointers and looks at `ready_queue` after every list operation: it goes on as long as
the queue is a list that nothing outside leads into. It also writes down what nobody in the kernel knows, when each
task has been put into the queue. Nothing is asked of the other queues, nor of what the kernel does with a task that
is in two of them.
-/

namespace OsLab.Sched

open Lib ProgM

/-- `ready_queue` is a list of the tasks `l`, and only its own nodes lead into it. -/
structure ReadyRing (L : Links Node) (l : List Slot) : Prop where
  ring : L.Ring (.head .ready_queue) (l.map .task)
  own : ∀ n m, L.next n = some m → m ∈ Node.head .ready_queue :: l.map .task → n ∈ Node.head .ready_queue :: l.map .task

/-- What an operation makes of the tasks in `ready_queue`. -/
def Op.onReady : Op → List Slot → List Slot
  | .enqueue i .ready_queue, l => l ++ [i]
  | .unlink i, l => l.erase i
  | .init .ready_queue, _ => []
  | _, l => l

theorem onReady_enqueue {q : Queue} (hq : q ≠ .ready_queue) (i : Slot) (l : List Slot) :
    (Op.enqueue i q).onReady l = l := by
  cases q with
  | ready_queue => exact absurd rfl hq
  | _ => rfl

theorem onReady_init {q : Queue} (hq : q ≠ .ready_queue) (l : List Slot) : (Op.init q).onReady l = l := by
  cases q with
  | ready_queue => exact absurd rfl hq
  | _ => rfl

/-- The pointers hold one list. -/
theorem ready_unique {L : Links Node} {l l' : List Slot} (h : L.Ring (.head .ready_queue) (l.map .task))
    (h' : L.Ring (.head .ready_queue) (l'.map .task)) : l = l' :=
  List.map_injective_iff.mpr (fun _ _ e => by injection e) (h.unique h')

variable {L L' : Links Node} {l l' : List Slot} {i : Slot} {q : Queue} {e : Op} {r : e.Res}

namespace ReadyRing

theorem head_notMem (hq : q ≠ .ready_queue) : Node.head q ∉ Node.head .ready_queue :: l.map .task := by
  simp [hq]

theorem nodup (h : ReadyRing L l) : l.Nodup := h.ring.nodup.of_map

/-- Pointers that were changed outside the list, or so that they leave it for good, hold no other list. -/
theorem same (h : ReadyRing L l) (h' : L'.Ring (.head .ready_queue) (l'.map .task)) {U : Node → Prop}
    (hU : ∀ n m, U n → L'.next n = some m → U m) (hh : ¬ U (.head .ready_queue))
    (hn : ∀ n, ¬ U n → L'.next n = L.next n ∨ ∃ m, L'.next n = some m ∧ U m) : l' = l :=
  List.map_injective_iff.mpr (fun _ _ e => by injection e) (h.ring.same h' hU hh hn)

/-- Putting a task into another queue. -/
theorem enqueue_other (h : ReadyRing L l) (hq : q ≠ .ready_queue) (he : pointers (.enqueue i q) L = some ((), L'))
    (h' : L'.Ring (.head .ready_queue) (l'.map .task)) : l' = l := by
  simp only [pointers, Option.bind_eq_bind, Option.bind_eq_some_iff, Option.some.injEq, Prod.mk.injEq, true_and] at he
  obtain ⟨tail, -, rfl⟩ := he
  -- who goes on to task `i` goes on to the other head, and does not come back
  refine h.same h' (U := fun n => n ∉ Node.head .ready_queue :: l.map .task ∨ n = .task i) ?_ ?_ ?_
  · intro n m hn hnm
    simp only [Links.setNext, Links.setPrev, Function.update_apply] at hnm
    by_cases hi : n = .task i
    · rw [if_pos hi] at hnm
      obtain rfl := Option.some.inj hnm
      exact .inl (head_notMem hq)
    · rw [if_neg hi] at hnm
      by_cases ht : n = tail
      · rw [if_pos ht] at hnm
        obtain rfl := Option.some.inj hnm
        exact .inr rfl
      · rw [if_neg ht] at hnm
        exact .inl fun hm => (hn.resolve_right hi) (h.own n m hnm hm)
  · rintro (hm | e)
    · exact hm (List.mem_cons_self ..)
    · cases e
  · intro n hn
    simp only [Links.setNext, Links.setPrev, Function.update_apply]
    rw [if_neg (not_or.mp hn).2]
    by_cases ht : n = tail
    · rw [if_pos ht]
      exact .inr ⟨_, rfl, .inr rfl⟩
    · rw [if_neg ht]
      exact .inl rfl

/-- Taking out a task that is not in the list. -/
theorem unlink_other (h : ReadyRing L l) (hi : i ∉ l) (he : pointers (.unlink i) L = some ((), L'))
    (h' : L'.Ring (.head .ready_queue) (l'.map .task)) : l' = l := by
  simp only [pointers, Option.bind_eq_bind, Option.bind_eq_some_iff, Option.some.injEq, Prod.mk.injEq, true_and] at he
  obtain ⟨next_node, hnext, prev_node, -, rfl⟩ := he
  have hout : next_node ∉ Node.head .ready_queue :: l.map .task :=
    fun hm => hi (task_mem_iff.mp (h.own _ _ hnext hm))
  refine h.same h' (U := fun n => n ∉ Node.head .ready_queue :: l.map .task)
    ?_ (fun hm => hm (List.mem_cons_self ..)) ?_
  · intro n m hn hnm hm
    simp only [Links.setNext, Links.setPrev, Function.update_apply] at hnm
    by_cases hp : n = prev_node
    · rw [if_pos hp] at hnm
      obtain rfl := Option.some.inj hnm
      exact hout hm
    · rw [if_neg hp] at hnm
      by_cases ht : n = .task i
      · rw [if_pos ht] at hnm
        cases hnm
      · rw [if_neg ht] at hnm
        exact hn (h.own n m hnm hm)
  · intro n hn
    have hni : n ≠ .task i := by
      rintro rfl
      exact hn fun hm => hi (task_mem_iff.mp hm)
    simp only [Links.setNext, Links.setPrev, Function.update_apply]
    rw [if_neg hni]
    by_cases hp : n = prev_node
    · rw [if_pos hp]
      exact .inr ⟨_, rfl, hout⟩
    · rw [if_neg hp]
      exact .inl rfl

/-- Initialising another queue. -/
theorem init_other (h : ReadyRing L l) (hq : q ≠ .ready_queue)
    (h' : (L.selfLink (.head q)).Ring (.head .ready_queue) (l'.map .task)) : l' = l := by
  refine h.same h' (U := fun n => n ∉ Node.head .ready_queue :: l.map .task)
    ?_ (fun hm => hm (List.mem_cons_self ..)) ?_
  · intro n m hn hnm hm
    simp only [Links.selfLink, Links.setNext, Links.setPrev, Function.update_apply] at hnm
    by_cases hp : n = .head q
    · rw [if_pos hp] at hnm
      obtain rfl := Option.some.inj hnm
      exact head_notMem hq hm
    · rw [if_neg hp] at hnm
      exact hn (h.own n m hnm hm)
  · intro n hn
    have hne : n ≠ .head q := by
      rintro rfl
      exact hn (head_notMem hq)
    simp only [Links.selfLink, Links.setNext, Links.setPrev, Function.update_apply]
    rw [if_neg hne]
    exact .inl rfl

/-- A task that is in the list cannot be put into it again: its `prev` would be the old tail. -/
theorem enqueue_twice (h : ReadyRing L l) (hi : i ∈ l) (he : pointers (.enqueue i .ready_queue) L = some ((), L')) :
    ¬ L'.Ring (.head .ready_queue) (l'.map .task) := by
  intro h'
  simp only [pointers, h.ring.prev_head, Option.bind_eq_bind,
    Option.bind_some, Option.some.injEq, Prod.mk.injEq, true_and] at he
  obtain ⟨pre, post, rfl, hpre⟩ := List.eq_append_cons_of_mem hi
  have hnd := h.ring.1
  have hchain := h.ring.next_chain
  rw [List.map_append, List.map_cons] at he hnd hchain
  -- the old tail is task `i` or comes after it
  obtain ⟨tail, htail, hmem⟩ : ∃ tail,
      (pre.map Node.task ++ Node.task i :: post.map Node.task).getLastD (.head .ready_queue) = tail ∧
      tail ∈ Node.task i :: post.map Node.task := by
    refine ⟨(post.map Node.task).getLastD (.task i), ?_, List.getLastD_mem_cons⟩
    rw [List.getLastD_eq_getLast?, List.getLast?_append, List.getLast?_cons,
      Option.some_or, Option.getD_some, List.getLastD_eq_getLast?]
  rw [htail] at he
  subst he
  have hfront : ∀ n ∈ Node.head .ready_queue :: pre.map .task, n ≠ tail ∧ n ≠ .task i := by
    intro n hn
    rw [← List.cons_append, List.nodup_append] at hnd
    exact ⟨hnd.2.2 n hn tail hmem, hnd.2.2 n hn _ (List.mem_cons_self ..)⟩
  generalize hL' : (((L.setNext tail (some (.task i))).setPrev (.task i) (some tail)).setPrev (.head .ready_queue)
    (some (.task i))).setNext (.task i) (some (.head .ready_queue)) = L' at h'
  have hnext : ∀ n ∈ Node.head .ready_queue :: pre.map .task, L'.next n = L.next n := by
    intro n hn
    obtain ⟨ht, hi⟩ := hfront n hn
    rw [← hL']
    simp only [Links.setNext, Links.setPrev, Function.update_of_ne ht, Function.update_of_ne hi]
  have hback : L'.next (.task i) = some (.head .ready_queue) := by
    rw [← hL']
    exact Function.update_self ..
  have hprev : L'.prev (.task i) = some tail := by
    rw [← hL']
    simp only [Links.setNext, Links.setPrev]
    rw [Function.update_of_ne (show Node.task i ≠ .head .ready_queue by simp), Function.update_self]
  -- from the head the pointers lead to task `i` as before, and from there back to the head
  have hl' : l'.map Node.task = pre.map Node.task ++ [.task i] := by
    refine Links.Ring.next_unique h'.next_chain ?_ h'.notMem ?_
    · rw [← List.cons_append, ← List.cons_append]
      have hold : ((Node.head .ready_queue :: pre.map Node.task) ++ [Node.task i]).IsChain fun x y =>
          L.next x = some y := by
        have hcut : Node.head .ready_queue ::
          (pre.map Node.task ++ Node.task i :: post.map Node.task ++ [.head .ready_queue]) =
            (Node.head .ready_queue :: pre.map Node.task ++ [Node.task i]) ++
            (post.map Node.task ++ [.head .ready_queue]) := by
          simp
        rw [hcut] at hchain
        exact hchain.left_of_append
      refine List.isChain_append.mpr ⟨Links.Ring.next_congr hold hnext, List.isChain_singleton _, fun x hx y hy => ?_⟩
      rw [List.getLast?_concat, Option.mem_some_iff] at hx
      rw [List.head?_cons, Option.mem_some_iff] at hy
      rw [← hx, ← hy, hback]
    · simp
  rw [hl'] at h'
  obtain ⟨xs, p, n, ys, hp, -, hprev', -, -, -⟩ := h'.split
  have hpmem : p ∈ Node.head .ready_queue :: pre.map .task := by
    rw [hp]
    exact List.mem_append_right _ (List.mem_singleton.mpr rfl)
  exact (hfront p hpmem).1 (Option.some.inj (hprev'.symm.trans hprev))

/-- The list that is there after an operation, if any. -/
theorem onReady (h : ReadyRing L l) (he : pointers e L = some (r, L'))
    (h' : L'.Ring (.head .ready_queue) (l'.map .task)) :
    l' = e.onReady l := by
  have hsame : L' = L → l' = l := by
    rintro rfl
    exact ready_unique h' h.ring
  cases e with
  | next q n =>
    obtain ⟨m, -, e⟩ := Option.map_eq_some_iff.mp he
    exact hsame (Prod.mk.inj e).2.symm
  | linked i => exact hsame (Prod.mk.inj (Option.some.inj he)).2.symm
  | enqueue i q =>
    by_cases hq : q = .ready_queue
    · subst hq
      by_cases hi : i ∈ l
      · exact absurd h' (h.enqueue_twice hi he)
      · obtain ⟨L'', he', hring, -⟩ := enqueue_ring h.ring hi
        obtain rfl := (Prod.mk.inj (Option.some.inj (he.symm.trans he'))).2
        exact ready_unique h' hring
    · rw [h.enqueue_other hq he h', onReady_enqueue hq]
  | unlink i =>
    by_cases hi : i ∈ l
    · obtain ⟨l₁, l₂, rfl, hnot⟩ := List.eq_append_cons_of_mem hi
      obtain ⟨L'', he', hring, -⟩ := unlink_ring h.ring
      obtain rfl := (Prod.mk.inj (Option.some.inj (he.symm.trans he'))).2
      rw [Op.onReady, List.erase_append_right _ hnot, List.erase_cons_head]
      exact ready_unique h' hring
    · rw [h.unlink_other hi he h', Op.onReady, List.erase_of_not_mem hi]
  | init q =>
    obtain rfl := (Prod.mk.inj (Option.some.inj he)).2
    by_cases hq : q = .ready_queue
    · subst hq
      exact List.map_eq_nil_iff.mp (h'.unique (Links.Ring.selfLink L _))
    · rw [h.init_other hq h', onReady_init hq]
  | processPages i pid task => exact hsame (Prod.mk.inj (Option.some.inj he)).2.symm
  | threadPages i pid thread => exact hsame (Prod.mk.inj (Option.some.inj he)).2.symm
  | releasePages i pid => exact hsame (Prod.mk.inj (Option.some.inj he)).2.symm

end ReadyRing

/-! ### Watching -/

/-- The pointers, the tasks in `ready_queue`, and when each task was last put into it. -/
structure Watch where
  links : Links Node
  ready : List Slot
  since : Slot → ℕ
  now : ℕ

/-- An operation has left the pointers `L`. -/
def Watch.after (w : Watch) (L : Links Node) : Op → Watch
  | .enqueue i .ready_queue => ⟨L, w.ready ++ [i], Function.update w.since i w.now, w.now + 1⟩
  | e => ⟨L, e.onReady w.ready, w.since, w.now⟩

open Classical in
/-- The list operations, as long as `ready_queue` stays a list. -/
noncomputable def watched : Handler Op Op.Res Watch := fun e w =>
  (pointers e w.links).bind fun x => if ReadyRing x.2 (e.onReady w.ready) then some (x.1, w.after x.2 e) else none

/-- `ready_queue` is a list, in the order in which the tasks have been put into it. -/
structure Watch.Ok (w : Watch) : Prop where
  ring : ReadyRing w.links w.ready
  order : w.ready.Pairwise fun i j => w.since i < w.since j
  past : ∀ i ∈ w.ready, w.since i < w.now

variable {w w' : Watch}

@[simp] theorem after_links (w : Watch) (L : Links Node) (e : Op) : (w.after L e).links = L := by
  cases e with
  | enqueue i q => cases q <;> rfl
  | _ => rfl

@[simp] theorem after_ready (w : Watch) (L : Links Node) (e : Op) : (w.after L e).ready = e.onReady w.ready := by
  cases e with
  | enqueue i q => cases q <;> rfl
  | _ => rfl

theorem watched_eq_some : watched e w = some (r, w') ↔
    ∃ L, pointers e w.links = some (r, L) ∧ ReadyRing L (e.onReady w.ready) ∧ w' = w.after L e := by
  simp only [watched, Option.bind_eq_some_iff, Option.ite_none_right_eq_some, Option.some.injEq, Prod.mk.injEq]
  constructor
  · rintro ⟨⟨r', L⟩, he, hring, rfl, rfl⟩
    exact ⟨L, he, hring, rfl⟩
  · rintro ⟨L, he, hring, rfl⟩
    exact ⟨(r, L), he, hring, rfl, rfl⟩

/-- An operation is watched to its end exactly when it leaves `ready_queue` a list. -/
theorem watched_iff (h : ReadyRing w.links w.ready) : watched e w = some (r, w') ↔
    ∃ L, pointers e w.links = some (r, L) ∧ (∃ l, ReadyRing L l) ∧ w' = w.after L e := by
  rw [watched_eq_some]
  constructor
  · rintro ⟨L, he, hring, rfl⟩
    exact ⟨L, he, ⟨_, hring⟩, rfl⟩
  · rintro ⟨L, he, ⟨l, hl⟩, rfl⟩
    exact ⟨L, he, h.onReady he hl.ring ▸ hl, rfl⟩

/-- What is watched is what the pointers do. -/
theorem exec_watched {α : Type} {x : SchedM α} {m m' : Kernel}
    {a : α} (hx : exec watched x ⟨m, w⟩ = some (a, ⟨m', w'⟩)) :
    exec pointers x ⟨m, w.links⟩ = some (a, ⟨m', w'.links⟩) := by
  have hsim : ∀ (e : Op) (w : Watch) (L : Links Node) (r : e.Res) (w' : Watch),
      w.links = L → watched e w = some (r, w') →
      ∃ L', pointers e L = some (r, L') ∧ w'.links = L' := by
    rintro e w _ r w' rfl he
    obtain ⟨L, hp, -, rfl⟩ := watched_eq_some.mp he
    exact ⟨L, hp, after_links ..⟩
  obtain ⟨L, he, rfl⟩ := exec_sim watched pointers _ hsim x w.links rfl hx
  exact he

theorem Watch.Ok.after (h : w.Ok) (he : watched e w = some (r, w')) : w'.Ok := by
  obtain ⟨L, -, hring, rfl⟩ := watched_eq_some.mp he
  -- only an operation that puts a task into the queue changes the times
  have hsub : (e.onReady w.ready).Sublist w.ready →
      w.after L e = ⟨L, e.onReady w.ready, w.since, w.now⟩ → (w.after L e).Ok := by
    intro hs hw
    rw [hw]
    exact ⟨hring, h.order.sublist hs, fun i hi => h.past i (hs.subset hi)⟩
  cases e with
  | enqueue i q =>
    by_cases hq : q = .ready_queue
    · subst hq
      have hi : i ∉ w.ready := by
        intro hi
        have hnd : (w.ready ++ [i]).Nodup := hring.nodup
        exact (List.nodup_append.mp hnd).2.2 i hi i (List.mem_singleton.mpr rfl) rfl
      have hold : ∀ j ∈ w.ready, Function.update w.since i w.now j = w.since j := by
        intro j hj
        refine Function.update_of_ne ?_ ..
        rintro rfl
        exact hi hj
      refine ⟨hring, List.pairwise_append.mpr ⟨?_, List.pairwise_singleton .., fun j hj k hk => ?_⟩, fun j hj => ?_⟩
      · exact h.order.imp_of_mem fun hj hk hjk => by
          show Function.update w.since i w.now _ < Function.update w.since i w.now _
          rwa [hold _ hj, hold _ hk]
      · obtain rfl := List.mem_singleton.mp hk
        show Function.update w.since k w.now j < Function.update w.since k w.now k
        rw [hold j hj, Function.update_self]
        exact h.past j hj
      · show Function.update w.since i w.now j < w.now + 1
        rcases List.mem_append.mp hj with hj | hj
        · rw [hold j hj]
          exact Nat.lt_succ_of_lt (h.past j hj)
        · obtain rfl := List.mem_singleton.mp hj
          rw [Function.update_self]
          exact Nat.lt_succ_self _
    · refine hsub ?_ ?_
      · rw [onReady_enqueue hq]
      · cases q with
        | ready_queue => exact absurd rfl hq
        | _ => rfl
  | unlink i => exact hsub List.erase_sublist rfl
  | init q =>
    refine hsub ?_ rfl
    cases q with
    | ready_queue => exact List.nil_sublist _
    | _ => exact List.Sublist.refl _
  | _ => exact hsub (List.Sublist.refl _) rfl

/-- The order is kept by every program. -/
theorem Watch.Ok.exec {α : Type} {x : SchedM α} {c c' : Conf Kernel Watch} {a : α} (h : c.dev.Ok)
    (hx : exec watched x c = some (a, c')) : c'.dev.Ok := by
  have hsim : ∀ (e : Op) (w v : Watch) (r : e.Res) (w' : Watch), (w = v ∧ w.Ok) → watched e w = some (r, w') →
      ∃ v', watched e v = some (r, v') ∧ (w' = v' ∧ w'.Ok) := by
    rintro e w _ r w' ⟨rfl, hok⟩ he
    exact ⟨w', he, rfl, hok.after he⟩
  obtain ⟨w, -, rfl, hok⟩ := exec_sim watched watched _ hsim x c.dev ⟨rfl, h⟩ hx
  exact hok

/-- In the disciplined kernel nothing outside leads into `ready_queue`. -/
theorem Repr.readyRing {Q : Queues} (h : Repr Q L) : ReadyRing L (Q .ready_queue) := by
  have hup : Q.Up .ready_queue := fun i hi => by cases hi
  refine ⟨h.ring _ hup, fun n m hnm hm => ?_⟩
  -- whoever leads somewhere is on the circle of an initialised queue, and its successor is on the same circle
  have hkey : ∀ q, Q.Up q → n ∈ Node.head q :: (Q q).map .task →
      n ∈ Node.head .ready_queue :: (Q .ready_queue).map .task := by
    intro q hq hn
    by_cases hqr : q = .ready_queue
    · subst hqr
      exact hn
    · exact absurd hm (h.notMem_other hqr ((h.ring q hq).next_mem hn hnm))
  cases n with
  | head q =>
    by_cases hq : Q.Up q
    · exact hkey q hq (List.mem_cons_self ..)
    · simp only [Queues.Up, not_forall] at hq
      obtain ⟨i, rfl, hi⟩ := hq
      rw [(h.raw i hi).1] at hnm
      cases hnm
  | task i =>
    by_cases hf : Q.Free i
    · rw [h.null i hf] at hnm
      cases hnm
    · rw [Queues.Free, not_forall] at hf
      obtain ⟨q, hq⟩ := hf
      exact hkey q (h.up_of_mem (not_not.mp hq)) (task_mem_iff.mpr (not_not.mp hq))

/-- Queues that are lists stay lists: the disciplined kernel can be watched for ever. -/
theorem listed_watched {α : Type} {x : SchedM α} {m m' : Kernel} {Q Q' : Queues}
    {a : α} (hQ : Repr Q w.links) (hw : w.ready = Q .ready_queue)
    (hx : exec listed x ⟨m, Q⟩ = some (a, ⟨m', Q'⟩)) :
    ∃ w', exec watched x ⟨m, w⟩ = some (a, ⟨m', w'⟩) ∧ Repr Q' w'.links ∧ w'.ready = Q' .ready_queue := by
  have hsim : ∀ (e : Op) (Q : Queues) (w : Watch) (r : e.Res) (Q' : Queues),
      (Repr Q w.links ∧ w.ready = Q .ready_queue) →
      listed e Q = some (r, Q') → ∃ w',
      watched e w = some (r, w') ∧ (Repr Q' w'.links ∧ w'.ready = Q' .ready_queue) := by
    rintro e Q w r Q' ⟨hQ, hw⟩ he
    obtain ⟨L, hp, hQ'⟩ := pointers_listed e Q w.links r Q' hQ he
    have hring : ReadyRing w.links w.ready := hw ▸ hQ.readyRing
    refine ⟨w.after L e, (watched_iff hring).mpr ⟨L, hp, ⟨_, hQ'.readyRing⟩, rfl⟩, ?_, ?_⟩
    · rwa [after_links]
    · rw [after_ready]
      exact (hring.onReady hp hQ'.readyRing.ring).symm
  exact exec_sim listed watched _ hsim x w ⟨hQ, hw⟩ hx

end OsLab.Sched
