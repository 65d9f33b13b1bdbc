import OsLab.Sched.Harts
import OsLab.Sched.Spares

/-!
# Rounds of a barrier

The calls of `do_barrier_wait` on a barrier with goal `g` are released in rounds of `g`, in the order
in which they are made. The calls are numbered, and a `Ledger` keeps the book: who made which call,
which calls are pending, and which calls were released together. It is kept by watching the run: a
call is pending as long as its task is `TASK_BLOCKED`, and is released by the step after which it is
not, because it has returned or has been made ready.

The queue of the barrier holds the tasks of the pending calls, in order, and the counter is their
number; everything else that tasks do in between leaves both alone (`act_spares`).
-/

namespace OsLab.Sched

open Lib ProgM

/-- The calls of `do_barrier_wait` on a barrier, numbered from 0. -/
structure Ledger where
  /-- The tasks that made the calls. -/
  callers : List Slot
  /-- The calls that have not been released yet. -/
  pending : List ℕ
  /-- The calls that were released together. -/
  rounds : List (List ℕ)

namespace Ledger

/-- No call has been made. -/
def empty : Ledger := ⟨[], [], []⟩

/-- The task of call `n` is blocked. -/
def blocked (callers : List Slot) (m : Kernel) (n : ℕ) : Bool := (callers[n]?).any fun i => m.status i = .TASK_BLOCKED

/-- The book after a step that leads to `m`, in which `caller` has made a call. -/
def observe (L : Ledger) (caller : Option Slot) (m : Kernel) : Ledger :=
  let callers := L.callers ++ caller.toList
  let calls := L.pending ++ (caller.map fun _ => L.callers.length).toList
  let released := calls.filter fun n => !blocked callers m n
  { callers := callers
    pending := calls.filter fun n => blocked callers m n
    rounds := if released = [] then L.rounds else L.rounds ++ [released] }

end Ledger

/-- The task that calls `do_barrier_wait(k)` in a step. -/
def barrierCaller (k : Handle) (m : Kernel) (h : Hart) : Action → Option Slot
  | .call (.do_barrier_wait k') => if k' = k then m.current_running h else none
  | _ => none

/-- Steps without `do_kill`, and without `do_barrier_destroy(k)`. -/
def BarrierOk (k : Handle) (m : Kernel) (a : Action) : Prop :=
  a.Valid m ∧ (∀ pid, a ≠ .call (.do_kill pid)) ∧ a ≠ .call (.do_barrier_destroy k)

/-- Runs from a `do_barrier_init(key, g)` that returns `k`, with the book of the calls on the barrier. -/
inductive BarrierRun (k : Handle) (g : ℕ) : Ledger → Machine → Prop where
  /-- The barrier is initialised. -/
  | init {s s' : Machine} {h : Hart} {i : Slot} {key : ℤ}
      (hr : Reach NoRemoteKill s) (hi : s.mem.current_running h = some i)
      (hs : Step h (.call (.do_barrier_init key g)) s s') (hk : s'.mem.a0 i = k.1) : BarrierRun k g .empty s'
  /-- Any step. -/
  | step {L : Ledger} {s s' : Machine} {h : Hart} {a : Action} (hr : BarrierRun k g L s) (hp : BarrierOk k s.mem a)
      (hs : Step h a s s') : BarrierRun k g (L.observe (barrierCaller k s.mem h a) s'.mem) s'

variable {c : St} {s s' : Machine} {h : Hart} {a : Action} {i : Slot} {k : Handle} {g : ℕ} {L : Ledger}

/-! ### The calls -/

theorem do_barrier_init_ensures (ha : At h i c) (key goal : ℤ) :
    Ensures listed c (do_barrier_init i key goal) fun _ c' =>
    c'.mem.a0 i = k.1 → c'.mem.barrier k = ⟨key, goal, 0, true⟩ ∧ c'.dev (.barrier k) = [] := by
  refine Ensures.get_bind ?_
  split
  · refine Ensures.modify fun hk => ?_
    simp only [Function.update_self] at hk
    omega
  · next k' hk' =>
    have hinact : (c.mem.barrier k').active = false := by
      have := List.find?_some hk'
      simpa using this
    have hnil : c.dev (.barrier k') = [] := List.eq_nil_iff_forall_not_mem.mpr fun x hx => by
      have : (c.mem.barrier k').active = true := ha.waits _ x hx
      rw [hinact] at this
      cases this
    refine Ensures.modify_bind (Ensures.bind (Ensures.perform (p := fun _ c' => c' = St.init
      ⟨{ c.mem with barrier := Function.update c.mem.barrier k' ⟨key, goal, 0, true⟩ }, c.dev⟩ (.barrier k'))
      fun r d he => ?_) ?_)
    · simp only [listed, Option.ite_none_right_eq_some, Option.some.injEq, Prod.mk.injEq] at he
      obtain ⟨-, -, rfl⟩ := he
      rfl
    · rintro _ _ rfl
      refine Ensures.modify fun hk => ?_
      simp only [Function.update_self] at hk
      obtain rfl : k' = k := Fin.ext (Int.ofNat.inj hk)
      exact ⟨Function.update_self .., hnil⟩

/-- A call that does not complete a round waits at the end of the queue. -/
theorem do_barrier_wait_blocks (ha : At h i c) (hk : (c.mem.barrier k).active = true)
    (hlt : (c.mem.barrier k).counter + 1 < (c.mem.barrier k).goal) :
    Ensures listed c (do_barrier_wait h i k) fun _ c' => c'.dev (.barrier k) = c.dev (.barrier k) ++ [i] ∧
      c'.mem.barrier k = { c.mem.barrier k with counter := (c.mem.barrier k).counter + 1 } := by
  refine Ensures.get_bind (Ensures.modify_bind ?_)
  have a₁ := ha.setBarrier (k := k) (b := { c.mem.barrier k with counter := (c.mem.barrier k).counter + 1 }) (Or.inl hk)
  rw [if_neg (not_le.mpr hlt), blockIn, setResume]
  refine Ensures.modify_bind ?_
  have hm :=
    ((a₁.mid h).setResume a₁.free (r := .ret 0) (by rintro k ⟨⟩)).block (q := .barrier k)
      a₁.here a₁.running (by simp)
    (by simpa [Reason, Kernel.setStatus] using hk)
  refine Ensures.seq (exec_do_block (q := .barrier k) a₁.free (by rintro i ⟨⟩)) ?_
  refine (do_scheduler_spares (o := none) (q := .barrier k) (by simp) (by simp) _ hm.disc.apart).mono ?_
  rintro _ c' ⟨-, hdev, hcalm⟩
  refine ⟨?_, ?_⟩
  · rw [hdev, dev_move, if_pos rfl, List.erase_of_not_mem (a₁.free _)]
  · have hself : ∀ b, Function.update c.mem.barrier k b k = b := fun b => Function.update_self ..
    refine (hcalm.barrier k rfl ?_).trans (hself _)
    show (Function.update c.mem.barrier k _ k).active = true
    rw [hself]
    exact hk

/-- A call that completes a round releases it. -/
theorem do_barrier_wait_releases (ha : At h i c) (hk : (c.mem.barrier k).active = true)
    (hle : (c.mem.barrier k).goal ≤ (c.mem.barrier k).counter + 1) :
    Ensures listed c (do_barrier_wait h i k) fun _ c' => c'.dev (.barrier k) = [] ∧
      c'.mem.barrier k = { c.mem.barrier k with counter := 0 } ∧
      ∀ j, j ∈ c.dev (.barrier k) ++ [i] → c'.mem.status j ≠ .TASK_BLOCKED := by
  refine Ensures.get_bind (Ensures.modify_bind ?_)
  have a₁ := ha.setBarrier (k := k) (b := { c.mem.barrier k with counter := (c.mem.barrier k).counter + 1 }) (Or.inl hk)
  rw [if_pos hle]
  refine (Ensures.of_returns (a₁.wakeAll (q := .barrier k) nofun nofun)).bind ?_
  rintro _ c₂ ⟨a₂, hf, -, hnil⟩
  refine Ensures.modify_bind (Ensures.modify ⟨hnil, Function.update_self .., fun j hj hb => ?_⟩)
  have hb : c₂.mem.status j = .TASK_BLOCKED := hb
  -- a task that is still blocked is in another queue, and was there before
  obtain ⟨q, hq, hjq⟩ := a₂.disc.blocked_iff.mp hb
  have hjq' : j ∈ c.dev q := hf.sub q j hq hjq
  rcases List.mem_append.mp hj with hj | hj
  · obtain rfl := ha.disc.disjoint hj hjq'
    rw [hnil] at hjq
    cases hjq
  · rw [List.mem_singleton.mp hj] at hjq'
    exact ha.free q hjq'

/-! ### The book -/

/-- The tasks of the calls from number `d` on. -/
theorem mem_drop_of_call {callers : List Slot} {d n : ℕ}
    (hd : d ≤ callers.length) (hn : n ∈ List.range' d (callers.length - d)) :
    ∃ j ∈ callers.drop d, callers[n]? = some j := by
  obtain ⟨h1, h2⟩ := List.mem_range'_1.mp hn
  have hlt : n < callers.length := by omega
  refine ⟨callers[n], ?_, List.getElem?_eq_getElem hlt⟩
  rw [List.mem_iff_getElem?]
  refine ⟨n - d, ?_⟩
  rw [List.getElem?_drop, Nat.add_sub_cancel' h1, List.getElem?_eq_getElem hlt]

/-- Nobody makes a call, and the pending tasks stay blocked. -/
theorem Ledger.observe_none {m : Kernel} {d : ℕ} (hd : d ≤ L.callers.length)
    (hp : L.pending = List.range' d (L.callers.length - d))
    (hb : ∀ j ∈ L.callers.drop d, m.status j = .TASK_BLOCKED) : L.observe none m = L := by
  have hall : ∀ n ∈ L.pending, blocked L.callers m n = true := by
    intro n hn
    rw [hp] at hn
    obtain ⟨j, hj, he⟩ := mem_drop_of_call hd hn
    simp [blocked, he, hb j hj]
  simp only [observe, Option.toList_none, List.append_nil, Option.map_none]
  rw [List.filter_eq_self.mpr hall, List.filter_eq_nil_iff.mpr, if_pos rfl]
  intro n hn
  simp [hall n hn]

/-- The calls after one more by task `i`. -/
theorem Ledger.range'_succ {d : ℕ} (hd : d ≤ L.callers.length) :
    List.range' d (L.callers.length - d) ++ [L.callers.length] = List.range' d ((L.callers ++ [i]).length - d) := by
  rw [List.length_append, List.length_singleton, Nat.sub_add_comm hd, List.range'_concat]
  congr 2
  omega

/-- Task `i` makes a call, and all pending tasks are blocked. -/
theorem Ledger.observe_blocks {m : Kernel} {d : ℕ} (hd : d ≤ L.callers.length)
    (hp : L.pending = List.range' d (L.callers.length - d))
    (hb : ∀ j ∈ L.callers.drop d ++ [i], m.status j = .TASK_BLOCKED) :
    L.observe (some i) m = ⟨L.callers ++ [i], List.range' d ((L.callers ++ [i]).length - d), L.rounds⟩ := by
  have hd' : d ≤ (L.callers ++ [i]).length := by simp; omega
  have hall : ∀ n ∈ List.range' d ((L.callers ++ [i]).length - d), blocked (L.callers ++ [i]) m n = true := by
    intro n hn
    obtain ⟨j, hj, he⟩ := mem_drop_of_call hd' hn
    rw [List.drop_append_of_le_length hd] at hj
    simp [blocked, he, hb j hj]
  simp only [observe, Option.toList_some, Option.map_some, hp, range'_succ (i := i) hd]
  rw [List.filter_eq_self.mpr hall, List.filter_eq_nil_iff.mpr, if_pos rfl]
  intro n hn
  simp [hall n hn]

/-- Task `i` makes a call, and none of the pending tasks stays blocked. -/
theorem Ledger.observe_releases {m : Kernel} {d : ℕ} (hd : d ≤ L.callers.length)
    (hp : L.pending = List.range' d (L.callers.length - d))
    (hb : ∀ j ∈ L.callers.drop d ++ [i], m.status j ≠ .TASK_BLOCKED) :
    L.observe (some i) m = ⟨L.callers ++ [i], [], L.rounds ++ [List.range' d ((L.callers ++ [i]).length - d)]⟩ := by
  have hd' : d ≤ (L.callers ++ [i]).length := by simp; omega
  have hall : ∀ n ∈ List.range' d ((L.callers ++ [i]).length - d), blocked (L.callers ++ [i]) m n = false := by
    intro n hn
    obtain ⟨j, hj, he⟩ := mem_drop_of_call hd' hn
    rw [List.drop_append_of_le_length hd] at hj
    simp [blocked, he, hb j hj]
  have hne : List.range' d ((L.callers ++ [i]).length - d) ≠ [] := by
    rw [← range'_succ hd]
    simp
  simp only [observe, Option.toList_some, Option.map_some, hp, range'_succ (i := i) hd]
  have hrel : (List.range' d ((L.callers ++ [i]).length - d)).filter (fun n => !blocked (L.callers ++ [i]) m n) =
      List.range' d ((L.callers ++ [i]).length - d) := List.filter_eq_self.mpr fun n hn => by simp [hall n hn]
  rw [hrel, if_neg hne, List.filter_eq_nil_iff.mpr]
  intro n hn
  simp [hall n hn]

/-! ### Rounds -/

/-- The calls released so far. -/
def rounds (g n : ℕ) : List (List ℕ) := (List.range (n / g)).map fun r => List.range' (g * r) g

/-- The barrier, its queue `l` and the book go together. -/
structure Gathered (k : Handle) (g : ℕ) (L : Ledger) (m : Kernel) (l : List Slot) : Prop where
  active : (m.barrier k).active = true
  goal : (m.barrier k).goal = g
  counter : (m.barrier k).counter = (L.callers.length % g : ℕ)
  queue : l = L.callers.drop (g * (L.callers.length / g))
  pending : L.pending = List.range' (g * (L.callers.length / g)) (L.callers.length % g)
  rounds : L.rounds = rounds g L.callers.length

namespace Gathered

theorem le_length (g n : ℕ) : g * (n / g) ≤ n := Nat.mul_div_le n g

theorem mod_eq (g n : ℕ) : n % g = n - g * (n / g) := by
  have := Nat.div_add_mod n g
  omega

/-- One call more, in the same round. -/
theorem div_succ {n : ℕ} (hlt : n % g + 1 < g) : (n + 1) / g = n / g ∧ (n + 1) % g = n % g + 1 := by
  have hdm := Nat.div_add_mod n g
  have hg : 0 < g := by omega
  have he : n + 1 = (n % g + 1) + g * (n / g) := by omega
  constructor
  · rw [he, Nat.add_mul_div_left _ _ hg, Nat.div_eq_of_lt hlt, Nat.zero_add]
  · rw [he, Nat.add_mul_mod_self_left, Nat.mod_eq_of_lt hlt]

/-- One call more, which completes the round. -/
theorem div_succ' {n : ℕ} (hg : 1 ≤ g) (hle : g ≤ n % g + 1) :
    (n + 1) / g = n / g + 1 ∧ (n + 1) % g = 0 ∧ n % g + 1 = g := by
  have hlt := Nat.mod_lt n hg
  have hdm := Nat.div_add_mod n g
  have he : n + 1 = g * (n / g + 1) := by
    rw [Nat.mul_add]
    omega
  refine ⟨?_, ?_, by omega⟩
  · rw [he, Nat.mul_div_cancel_left _ hg]
  · rw [he, Nat.mul_mod_right]

/-- A step that has nothing to do with the barrier. -/
theorem other {m m' : Kernel} {l : List Slot} (hG : Gathered k g L m l) (hb : m'.barrier k = m.barrier k)
    (hl : ∀ j ∈ l, m'.status j = .TASK_BLOCKED) : Gathered k g (L.observe none m') m' l := by
  have hobs : L.observe none m' = L := by
    refine Ledger.observe_none (le_length g _) (by rw [hG.pending, mod_eq]) ?_
    rw [← hG.queue]
    exact hl
  rw [hobs]
  exact ⟨by rw [hb]; exact hG.active, by rw [hb]; exact hG.goal, by
    rw [hb]; exact hG.counter, hG.queue, hG.pending, hG.rounds⟩

/-- A call that waits. -/
theorem waits {m m' : Kernel} {l : List Slot} (hG : Gathered k g L m l) (hlt : L.callers.length % g + 1 < g)
    (hb : m'.barrier k = { m.barrier k with counter := (m.barrier k).counter + 1 })
    (hl : ∀ j ∈ l ++ [i], m'.status j = .TASK_BLOCKED) : Gathered k g (L.observe (some i) m') m' (l ++ [i]) := by
  obtain ⟨hdiv, hmod⟩ := div_succ hlt
  rw [Ledger.observe_blocks (le_length g _) (by rw [hG.pending, mod_eq]) (by rw [← hG.queue]; exact hl)]
  refine ⟨by rw [hb]; exact hG.active, by rw [hb]; exact hG.goal, ?_, ?_, ?_, ?_⟩
  · rw [hb, List.length_append, List.length_singleton, hmod]
    show (m.barrier k).counter + 1 = _
    rw [hG.counter]
    push_cast
    rfl
  · rw [List.length_append, List.length_singleton, hdiv, List.drop_append_of_le_length (le_length g _), ← hG.queue]
  · have hsub : L.callers.length + 1 - g * (L.callers.length / g) = L.callers.length % g + 1 := by
      have := Nat.div_add_mod L.callers.length g
      omega
    simp only [List.length_append, List.length_singleton, hdiv, hmod, hsub]
  · simp only [List.length_append, List.length_singleton, Sched.rounds, hdiv]
    exact hG.rounds

/-- A call that completes a round. -/
theorem releases {m m' : Kernel} {l : List Slot} (hG : Gathered k g L m l)
    (hg : 1 ≤ g) (hle : g ≤ L.callers.length % g + 1)
    (hb : m'.barrier k = { m.barrier k with counter := 0 }) (hl : ∀ j ∈ l ++ [i], m'.status j ≠ .TASK_BLOCKED) :
    Gathered k g (L.observe (some i) m') m' [] := by
  obtain ⟨hdiv, hmod, hfull⟩ := div_succ' hg hle
  rw [Ledger.observe_releases (le_length g _) (by rw [hG.pending, mod_eq]) (by rw [← hG.queue]; exact hl)]
  have hlen : L.callers.length + 1 = g * (L.callers.length / g + 1) := by
    have := Nat.div_add_mod L.callers.length g
    rw [Nat.mul_add]
    omega
  refine ⟨by rw [hb]; exact hG.active, by rw [hb]; exact hG.goal, ?_, ?_, ?_, ?_⟩
  · rw [hb, List.length_append, List.length_singleton, hmod]
    rfl
  · rw [List.length_append, List.length_singleton, hdiv, List.drop_eq_nil_of_le]
    rw [List.length_append, List.length_singleton, hlen]
  · simp only [List.length_append, List.length_singleton, hmod, List.range'_zero]
  · have hsub : L.callers.length + 1 - g * (L.callers.length / g) = g := by
      rw [hlen, Nat.mul_add]
      omega
    simp only [List.length_append, List.length_singleton, hsub]
    rw [hG.rounds, Sched.rounds, Sched.rounds, hdiv, List.range_succ, List.map_append, List.map_singleton]

end Gathered

/-- The machine and the book go together. -/
def BarrierInv (k : Handle) (g : ℕ) (L : Ledger) (s : Machine) : Prop :=
  ∃ Q : Queues, Repr Q s.dev ∧ Inv ⟨s.mem, Q⟩ ∧ Gathered k g L s.mem (Q (.barrier k))

/-- The tasks in the queue of a barrier are blocked. -/
theorem Inv.blocked_of_barrier (hc : Inv c) {j : Slot} (hj : j ∈ c.dev (.barrier k)) : c.mem.status j = .TASK_BLOCKED :=
  hc.disc.blocked_iff.mpr ⟨.barrier k, nofun, hj⟩

/-- The steps that have nothing to do with a barrier. -/
theorem spares_barrier (hkill : ∀ pid, a ≠ .call (.do_kill pid)) (hwait : a ≠ .call (.do_barrier_wait k))
    (hdestroy : a ≠ .call (.do_barrier_destroy k)) : a.Spares (.barrier k) := by
  cases a with
  | timer => trivial
  | resume msg => trivial
  | call call =>
    cases call with
    | do_kill pid => exact hkill pid rfl
    | do_barrier_wait k' =>
      rintro ⟨⟩
      exact hwait rfl
    | do_barrier_destroy k' =>
      rintro ⟨⟩
      exact hdestroy rfl
    | do_condition_wait k' m => exact nofun
    | do_condition_signal k' => exact nofun
    | do_condition_broadcast k' => exact nofun
    | do_condition_destroy k' => exact nofun
    | _ => trivial

/-- What one step keeps. -/
theorem BarrierInv.step (hg : 1 ≤ g) (hI : BarrierInv k g L s) (hp : BarrierOk k s.mem a) (hs : Step h a s s') :
    BarrierInv k g (L.observe (barrierCaller k s.mem h a) s'.mem) s' := by
  obtain ⟨Q, hrep, hinv, hG⟩ := hI
  obtain ⟨Q', hrep', hinv', he⟩ := hs.listed hrep hinv hp.1 (killOk_of_ne hp.2.1)
  refine ⟨Q', hrep', hinv', ?_⟩
  by_cases hw : a = .call (.do_barrier_wait k)
  · subst hw
    obtain ⟨i, hi⟩ : ∃ i, s.mem.current_running h = some i := exists_task he fun _ _ _ => ⟨nofun, nofun, nofun⟩
    have ha : At h i ⟨s.mem, Q⟩ := ⟨hinv, hi⟩
    simp only [barrierCaller, if_true, hi]
    by_cases hlt : L.callers.length % g + 1 < g
    · have hpost := Ensures.act_call ha (e := .do_barrier_wait k) (do_barrier_wait_blocks ha hG.active ?_) _ _ he
      · obtain ⟨hdev, hb⟩ := hpost
        rw [show Q' (.barrier k) = Q (.barrier k) ++ [i] from hdev]
        refine hG.waits hlt hb fun j hj => hinv'.blocked_of_barrier (k := k) ?_
        rw [show (Conf.dev ⟨s'.mem, Q'⟩ : Queues) (.barrier k) = Q (.barrier k) ++ [i] from hdev]
        exact hj
      · show (s.mem.barrier k).counter + 1 < (s.mem.barrier k).goal
        rw [hG.counter, hG.goal]
        exact_mod_cast hlt
    · have hpost := Ensures.act_call ha (e := .do_barrier_wait k) (do_barrier_wait_releases ha hG.active ?_) _ _ he
      · obtain ⟨hdev, hb, hl⟩ := hpost
        rw [show Q' (.barrier k) = [] from hdev]
        exact hG.releases hg (not_lt.mp hlt) hb hl
      · show (s.mem.barrier k).goal ≤ (s.mem.barrier k).counter + 1
        rw [hG.counter, hG.goal]
        exact_mod_cast not_lt.mp hlt
  · have hnone : barrierCaller k s.mem h a = none := by
      unfold barrierCaller
      split
      · next k' =>
        rw [if_neg]
        rintro rfl
        exact hw rfl
      · rfl
    have hspares : a.Spares (.barrier k) := spares_barrier hp.2.1 hw hp.2.2
    obtain ⟨-, hdev, hcalm⟩ := act_spares (q := .barrier k) trivial hspares hinv.disc.apart _ _ he
    rw [hnone, show Q' (.barrier k) = Q (.barrier k) from hdev]
    refine hG.other (hcalm.barrier k rfl hG.active) fun j hj => hinv'.blocked_of_barrier (k := k) ?_
    rw [show (Conf.dev ⟨s'.mem, Q'⟩ : Queues) (.barrier k) = Q (.barrier k) from hdev]
    exact hj

/-- What every run keeps. -/
theorem BarrierRun.inv (hg : 1 ≤ g) (hr : BarrierRun k g L s) : BarrierInv k g L s := by
  induction hr with
  | @init s s' h i key hr hi hs hk =>
    obtain ⟨Q, hrep, hinv⟩ := hr.sound fun _ _ _ hp => hp
    obtain ⟨Q', hrep', hinv', he⟩ := hs.listed hrep hinv trivial (killOk_of_ne nofun)
    have ha : At h i ⟨s.mem, Q⟩ := ⟨hinv, hi⟩
    obtain ⟨hb, hnil⟩ := Ensures.act_call ha (e := .do_barrier_init key g) (do_barrier_init_ensures ha key g) _ _ he hk
    have hb : s'.mem.barrier k = ⟨key, g, 0, true⟩ := hb
    refine ⟨Q', hrep', hinv', ?_⟩
    rw [show Q' (.barrier k) = [] from hnil]
    refine ⟨by rw [hb], by rw [hb], by rw [hb]; simp [Ledger.empty], ?_, ?_, ?_⟩
    · simp [Ledger.empty]
    · simp [Ledger.empty]
    · simp [Ledger.empty, rounds]
  | step hr hp hs ih => exact ih.step hg hp hs

theorem flatten_rounds (g r : ℕ) :
    ((List.range r).map fun r => List.range' (g * r) g).flatten = List.range (g * r) := by
  induction r with
  | zero => simp
  | succ r ih =>
    rw [List.range_succ, List.map_append, List.flatten_append, ih,
      List.map_singleton, List.flatten_singleton, Nat.mul_succ,
      List.range_add, List.range'_eq_map_range]

/-- After `n` calls the first `g * (n / g)` have been released, in rounds of `g` consecutive calls;
the tasks of the others are in the queue, and the counter is their number. -/
theorem barrier_rounds (hg : 1 ≤ g) (hr : BarrierRun k g L s) :
    L.rounds = rounds g L.callers.length ∧
      L.rounds.flatten = List.range (g * (L.callers.length / g)) ∧
      L.pending = List.range' (g * (L.callers.length / g)) (L.callers.length % g) ∧
      s.dev.Ring (.head (.barrier k)) ((L.callers.drop (g * (L.callers.length / g))).map .task) ∧
      (s.mem.barrier k).counter = (L.callers.length % g : ℕ) := by
  obtain ⟨Q, hrep, hinv, hG⟩ := hr.inv hg
  refine ⟨hG.rounds, ?_, hG.pending, ?_, hG.counter⟩
  · rw [hG.rounds, rounds]
    exact flatten_rounds g _
  · rw [← hG.queue]
    exact hrep.ring (.barrier k) nofun

/-- The book and the machine after the given steps, if they can all be taken. -/
def barrierSteps (k : Handle) : List (Hart × Action) → Ledger → Machine → Option (Ledger × Machine)
  | [], L, s => some (L, s)
  | (h, a) :: l, L, s =>
    if Enabled s.mem h a then
      (exec pointers (act h a) s).bind fun r => barrierSteps k l (L.observe (barrierCaller k s.mem h a) r.2.mem) r.2
    else none

theorem BarrierRun.steps {r : Ledger × Machine} (hg : 1 ≤ g) (hr : BarrierRun k g L s) (n : ℕ)
    (he : barrierSteps k (List.replicate n (0, .call (.do_barrier_wait k))) L s = some r) : BarrierRun k g r.1 r.2 := by
  induction n generalizing L s with
  | zero =>
    obtain rfl := Option.some.inj he
    exact hr
  | succ n ih =>
    rw [List.replicate_succ, barrierSteps, Option.ite_none_right_eq_some, Option.bind_eq_some_iff] at he
    obtain ⟨hen, ⟨⟨⟩, s₁⟩, hex, hl⟩ := he
    obtain ⟨Q, -, -, hG⟩ := hr.inv hg
    have hp : BarrierOk k s.mem (.call (.do_barrier_wait k)) := ⟨hG.active, nofun, nofun⟩
    exact ih (hr.step hp ⟨hen, hex⟩) hl

/-- Two processes are started, and the first initialises a barrier for two. -/
def meeting : List (Hart × Action) :=
  [(0, .call (.do_taskset_exec ⟨[], length_nil_lt⟩ 3)),
    (0, .call (.do_taskset_exec ⟨[], length_nil_lt⟩ 3)), (0, .timer)]

/-- The two processes meet. -/
theorem barrier_rounds_two : ∃ (L : Ledger) (s : Machine), BarrierRun ⟨0, by decide⟩ 2 L s ∧
    L.callers = [⟨0, by decide⟩, ⟨1, by decide⟩] ∧ L.rounds = [[0, 1]] := by
  have hrun : (Sched.steps meeting .start).bind
      (fun s => (exec pointers (act 0 (.call (.do_barrier_init 0 (2 : ℕ)))) s).bind fun r =>
      (barrierSteps ⟨0, by decide⟩ (List.replicate 2 (0, .call (.do_barrier_wait ⟨0, by decide⟩))) .empty r.2).map
          fun r' =>
        decide (s.mem.current_running 0 = some ⟨0, by decide⟩ ∧ Enabled s.mem 0 (.call (.do_barrier_init 0 (2 : ℕ))) ∧
          r.2.mem.a0 ⟨0, by decide⟩ = 0 ∧ r'.1.callers = [⟨0, by decide⟩, ⟨1, by decide⟩])) = some true := by
    decide +kernel
  obtain ⟨s₀, hs₀, hrun⟩ := Option.bind_eq_some_iff.mp hrun
  obtain ⟨⟨⟨⟩, s₁⟩, hs₁, hrun⟩ := Option.bind_eq_some_iff.mp hrun
  obtain ⟨⟨L, s⟩, hs, hrun⟩ := Option.map_eq_some_iff.mp hrun
  obtain ⟨hcur, hen, ha0, hcallers⟩ := of_decide_eq_true hrun
  have hreach : Reach NoRemoteKill s₀ := by
    refine (Reach.boot boot_start).steps meeting ?_ hs₀
    intro m x hx
    simp only [meeting, List.mem_cons, List.not_mem_nil, or_false] at hx
    rcases hx with rfl | rfl | rfl
    all_goals exact ⟨trivial, nofun⟩
  have hL : BarrierRun ⟨0, by decide⟩ 2 L s := (BarrierRun.init hreach hcur ⟨hen, hs₁⟩ ha0).steps (by decide) 2 hs
  refine ⟨L, s, hL, hcallers, ?_⟩
  rw [(barrier_rounds (by decide) hL).1, hcallers]
  rfl

end OsLab.Sched
