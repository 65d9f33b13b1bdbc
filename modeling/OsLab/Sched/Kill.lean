import OsLab.Sched.Barrier
import OsLab.Sched.Mutex

/-!
# What `do_kill` leaves behind

`do_kill(pid)` of another process ends its tasks one after the other. Each round wakes the tasks that
wait for the victim, unlocks the mutexes of the process and takes the victim out of its queue, so every
round changes what the next one finds. What holds between two rounds is `Clearing`: the tasks that the
call is not about (`Other`) have kept their status and their order in every queue, the tasks that have
been woken are in `ready_queue`, and only mutexes of the process have been unlocked.

`release_process_mutex` looks at the mutexes that `do_mutex_lock_init` has given out, and
`do_mutex_lock_acquire` locks any. And a process without a living task is not looked at at all. So the
call cleans up when the mutexes of the process are among those given out and one of its tasks is alive,
and otherwise it does not (`do_kill_cleansUp_iff`).
-/

namespace OsLab.Sched

open Lib ProgM

variable {c c₀ c₁ c' : St} {s s' : Machine} {h h₀ : Hart} {i j x : Slot} {k : Handle} {q : Queue} {pid : Int32}

/-! ### What is to be cleaned up -/

/-- Mutex `k` is locked by process `pid`. -/
def Held (m : Kernel) (pid : Int32) (k : Handle) : Prop := (m.mlocks k).locked = true ∧ (m.mlocks k).pid = pid

/-- Task `x` waits for a task of process `pid`, or for one of its mutexes. -/
def Hit (pid : Int32) (c : St) (x : Slot) : Prop :=
  (∃ j, (c.mem.pcb j).pid = pid ∧ x ∈ c.dev (.wait j)) ∨ ∃ k, Held c.mem pid k ∧ x ∈ c.dev (.mutex k)

/-- The tasks that a `do_kill(pid)` is not about. -/
def Other (pid : Int32) (c : St) (x : Slot) : Prop := (c.mem.pcb x).pid ≠ pid ∧ ¬ Hit pid c x

instance (m : Kernel) (pid : Int32) (k : Handle) : Decidable (Held m pid k) := inferInstanceAs (Decidable (_ ∧ _))

instance (pid : Int32) (c : St) (x : Slot) : Decidable (Hit pid c x) := inferInstanceAs (Decidable (_ ∨ _))

instance (pid : Int32) (c : St) (x : Slot) : Decidable (Other pid c x) := inferInstanceAs (Decidable (_ ∧ _))

/-- Nothing of process `pid` is left in `c'`, and only that has changed since `c`. -/
structure CleansUp (pid : Int32) (c c' : St) : Prop where
  exited : ∀ x, (c'.mem.pcb x).pid = pid → c'.mem.status x = .TASK_EXITED ∧ c'.dev.Free x
  woken : ∀ x, (c.mem.pcb x).pid ≠ pid → Hit pid c x → c'.mem.status x = .TASK_READY ∧ x ∈ c'.dev .ready_queue
  mutex : ∀ k, ¬ Held c'.mem pid k
  status : ∀ x, Other pid c x → c'.mem.status x = c.mem.status x
  order : ∀ q, (c'.dev q).filter (Other pid c ·) = (c.dev q).filter (Other pid c ·)

/-- The mutexes of the process have been given out by `do_mutex_lock_init`, and if it holds one, it has
a task that is alive. -/
def Releasable (pid : Int32) (m : Kernel) : Prop :=
  ∀ k, Held m pid k → k.1 < m.last_lockid ∧ ∃ x, (m.pcb x).pid = pid ∧ m.status x ≠ .TASK_EXITED

/-! ### Between two rounds -/

/-- How far a `do_kill(pid)` has come that began at `c₀`. -/
structure Clearing (pid : Int32) (c₀ c : St) : Prop where
  pids : ∀ x, (c.mem.pcb x).pid = (c₀.mem.pcb x).pid
  lockid : c.mem.last_lockid = c₀.mem.last_lockid
  mutex : ∀ k, c.mem.mlocks k = c₀.mem.mlocks k ∨
    ((c.mem.mlocks k).locked = false ∧ Held c₀.mem pid k ∧ k.1 < c₀.mem.last_lockid)
  /-- A task that is still in a queue has always been there, except in `ready_queue`. -/
  old : ∀ q, q ≠ .ready_queue → ∀ x ∈ c.dev q, x ∈ c₀.dev q
  /-- The tasks of other processes leave a queue only for `ready_queue`. -/
  stays : ∀ q, ∀ x ∈ c₀.dev q, (c₀.mem.pcb x).pid ≠ pid → x ∈ c.dev q ∨ x ∈ c.dev .ready_queue
  status : ∀ x, Other pid c₀ x → c.mem.status x = c₀.mem.status x
  order : ∀ q, (c.dev q).filter (Other pid c₀ ·) = (c₀.dev q).filter (Other pid c₀ ·)

namespace Clearing

theorem refl (pid : Int32) (c : St) : Clearing pid c c :=
  ⟨fun _ => rfl, rfl, fun _ => Or.inl rfl, fun _ _ _ hx => hx, fun _ _ hx _ => Or.inl hx, fun _ _ => rfl, fun _ => rfl⟩

/-- Variables change that the call does not look at. -/
theorem of_mem (hc : Clearing pid c₀ c) {m : Kernel} (hp : m.pcb = c.mem.pcb) (hm : m.mlocks = c.mem.mlocks)
    (hl : m.last_lockid = c.mem.last_lockid) : Clearing pid c₀ ⟨m, c.dev⟩ := by
  refine ⟨fun x => ?_, hl.trans hc.lockid, fun k => ?_, hc.old, hc.stays, fun x hx => ?_, hc.order⟩
  · rw [hp]
    exact hc.pids x
  · rw [hm]
    exact hc.mutex k
  · rw [Kernel.status, hp]
    exact hc.status x hx

/-- A task moves that the call is about: one of the process, or one that is made ready. -/
theorem move (hc : Clearing pid c₀ c) (hd : c.Disc) (hx : ¬ Other pid c₀ x) {t : Option Queue} {st : TaskStatus}
    (ht : t = some .ready_queue ∨ t = none ∧ (c₀.mem.pcb x).pid = pid) : Clearing pid c₀ (c.move x t st) := by
  have hmem : ∀ q y, y ∈ (c.move x t st).dev q ↔ (y ≠ x ∧ y ∈ c.dev q) ∨ (y = x ∧ t = some q) :=
    fun q y => mem_move hd.nodup
  refine ⟨fun y => ?_, hc.lockid, hc.mutex, fun q hq y hy => ?_, fun q y hy hpid => ?_, fun y hy => ?_, fun q => ?_⟩
  · rw [← hc.pids y]
    by_cases hyx : y = x
    · subst hyx
      simp [St.move, Kernel.setStatus]
    · simp [St.move, Kernel.setStatus, hyx]
  · rcases (hmem q y).mp hy with ⟨-, hy⟩ | ⟨rfl, rfl⟩
    · exact hc.old q hq y hy
    · rcases ht with ht | ⟨ht, -⟩
      · exact absurd (Option.some.inj ht) hq
      · cases ht
  · by_cases hyx : y = x
    · subst hyx
      rcases ht with ht | ⟨-, ht⟩
      · exact Or.inr ((hmem _ _).mpr (Or.inr ⟨rfl, ht⟩))
      · exact absurd ht hpid
    · refine (hc.stays q y hy hpid).imp ?_ ?_
      · exact fun hin => (hmem _ _).mpr (Or.inl ⟨hyx, hin⟩)
      · exact fun hin => (hmem _ _).mpr (Or.inl ⟨hyx, hin⟩)
  · have hyx : y ≠ x := by
      rintro rfl
      exact hx hy
    rw [status_move_of_ne _ _ _ hyx]
    exact hc.status y hy
  · rw [← hc.order q, dev_move, List.filter_append, (hd.nodup q).erase_eq_filter, List.filter_filter]
    have hnil : (if t = some q then [x] else []).filter (Other pid c₀ ·) = [] := by
      split
      · simp [hx]
      · rfl
    rw [hnil, List.append_nil]
    refine List.filter_congr fun y _ => ?_
    by_cases hyx : y = x
    · subst hyx
      simp [hx]
    · simp [hyx]

/-- A mutex that is still locked is still held. -/
theorem held (hc : Clearing pid c₀ c) (hk : Held c.mem pid k) : Held c₀.mem pid k := by
  rcases hc.mutex k with e | ⟨e, -⟩
  · rw [Held, e] at hk
    exact hk
  · rw [hk.1] at e
    cases e

end Clearing

/-! ### One round -/

/-- What every single wake-up keeps is kept by `wakeAll`. -/
theorem wakeLoop_induct {I : St → Prop} (hq : q ≠ .ready_queue) (fuel : ℕ) (hd : c.Disc) (hI : I c)
    (hstep : ∀ c : St, c.Disc → I c → ∀ x ∈ c.dev q, I (c.move x (some .ready_queue) .TASK_READY)) :
    Ensures listed c (wakeLoop q fuel) fun _ c' => I c' := by
  induction fuel generalizing c with
  | zero => exact Ensures.stop
  | succ fuel ih =>
    rw [wakeLoop]
    refine (nextNode_mem (.head q)).bind ?_
    rintro n c' ⟨rfl, hn⟩
    cases n with
    | head q' => exact Ensures.ite (fun _ => Ensures.pure hI) fun _ => Ensures.stop
    | task x =>
      have hx := hn.1 x rfl
      refine Ensures.seq (exec_do_unblock hd.nodup (not_free hx)) ?_
      exact ih (Frame.wake hd hq hx).disc (hstep c' hd hI x hx)

namespace Clearing

/-- The tasks of a queue are woken that the call is about. -/
theorem wakeAll (hc : Clearing pid c₀ c) (hd : c.Disc) (hq : q ≠ .ready_queue) (hx : ∀ x ∈ c₀.dev q, ¬ Other pid c₀ x) :
    Ensures listed c (wakeAll q) fun _ c' => Clearing pid c₀ c' ∧ c'.mem.mlocks = c.mem.mlocks := by
  refine wakeLoop_induct (I := fun d => Clearing pid c₀ d ∧ d.mem.mlocks = c.mem.mlocks) hq _ hd ⟨hc, rfl⟩ ?_
  rintro d hdd ⟨hcd, hm⟩ x hxd
  exact ⟨hcd.move hdd (hx x (hcd.old q hq x hxd)) (Or.inl rfl), hm⟩

theorem wakeWaiting (hc : Clearing pid c₀ c) (hd : c.Disc) (hj : (c₀.mem.pcb j).pid = pid) :
    Ensures listed c (Sched.wakeAll (.wait j)) fun _ c' => Clearing pid c₀ c' :=
  (hc.wakeAll (q := .wait j) hd nofun fun _ hx ho => ho.2 (Or.inl ⟨j, hj, hx⟩)).mono fun _ _ h => h.1

/-- A mutex of the process is unlocked. -/
theorem unlock (hc : Clearing pid c₀ c) (hd : c.Disc) (hk : Held c.mem pid k) (hl : k.1 < c₀.mem.last_lockid) :
    Ensures listed c (unlock k) fun _ c' => Clearing pid c₀ c' ∧
      c'.mem.mlocks = Function.update c.mem.mlocks k { c.mem.mlocks k with locked := false, pid := 0 } := by
  have hk₀ := hc.held hk
  refine Ensures.get_bind (Ensures.modify_bind ?_)
  have hc₁ : Clearing pid c₀ ⟨{ c.mem with
      mlocks := Function.update c.mem.mlocks k { c.mem.mlocks k with locked := false, pid := 0 } }, c.dev⟩ := by
    refine ⟨hc.pids, hc.lockid, fun k' => ?_, hc.old, hc.stays, hc.status, hc.order⟩
    by_cases hkk : k' = k
    · subst hkk
      exact Or.inr ⟨by simp, hk₀, hl⟩
    · simpa [hkk] using hc.mutex k'
  exact hc₁.wakeAll (q := .mutex k) hd nofun fun x hx ho => ho.2 (Or.inr ⟨k, hk₀, hx⟩)

/-- The mutexes of the process are unlocked, as far as `last_lockid`. -/
theorem releaseLoop (hc : Clearing pid c₀ c) (ks : List Handle) (hd : c.Disc) (hw : c.Waits) :
    Ensures listed c (releaseLoop pid ks) fun _ c' => Clearing pid c₀ c' ∧
      (∀ k ∈ ks, k.1 < c₀.mem.last_lockid → ¬ Held c'.mem pid k) ∧ ∀ k, Held c'.mem pid k → Held c.mem pid k := by
  induction ks generalizing c with
  | nil => exact Ensures.pure ⟨hc, nofun, fun _ hk => hk⟩
  | cons k ks ih =>
    rw [Sched.releaseLoop]
    have hround :
      Ensures listed c
      (ifThen (k.1 < c.mem.last_lockid ∧ (c.mem.mlocks k).locked ∧ (c.mem.mlocks k).pid = pid)
        (Sched.unlock k)) fun _ c' => Clearing pid c₀ c' ∧ (k.1 < c₀.mem.last_lockid → ¬ Held c'.mem pid k) ∧
          (∀ k, Held c'.mem pid k → Held c.mem pid k) ∧ St.Disc c' ∧ St.Waits c' := by
      refine Ensures.ite (fun hk => ?_) fun hk =>
        Ensures.pure ⟨hc, fun hl hh => hk ⟨by rw [hc.lockid]; exact hl, hh⟩, fun _ hh => hh, hd, hw⟩
      refine ((Ensures.of_returns (unlock_spec hd hw k)).and
        (hc.unlock hd hk.2 (by rw [← hc.lockid]; exact hk.1))).mono ?_
      rintro _ c₁ ⟨⟨hf, hw₁⟩, hc₁, hm⟩
      have hself : ¬ Held c₁.mem pid k := by
        rw [Held, hm]
        simp
      refine ⟨hc₁, fun _ => hself, fun k' hk' => ?_, hf.disc, hw₁⟩
      have hkk : k' ≠ k := by
        rintro rfl
        exact hself hk'
      simpa only [Held, hm, Function.update_of_ne hkk] using hk'
    refine Ensures.get_bind (hround.bind ?_)
    rintro _ c₁ ⟨hc₁, hk₁, hless₁, hd₁, hw₁⟩
    refine (ih hc₁ hd₁ hw₁).mono ?_
    rintro _ c₂ ⟨hc₂, hks₂, hless₂⟩
    refine ⟨hc₂, fun k' hk' hl hh => ?_, fun k' hk' => hless₁ k' (hless₂ k' hk')⟩
    rcases List.mem_cons.mp hk' with rfl | hk'
    · exact hk₁ hl (hless₂ _ hh)
    · exact hks₂ k' hk' hl hh

/-- One victim. -/
theorem killPcb (hc : Clearing pid c₀ c) (hm : Mid h c)
    (hpid : (c.mem.pcb j).pid = pid) (hj : c.mem.status j ≠ .TASK_EXITED) :
    Ensures listed c (killPcb j pid) fun _ c' => Clearing pid c₀ c' ∧ ∀ k : Handle,
    k.1 < c₀.mem.last_lockid → ¬ Held c'.mem pid k := by
  have hpid₀ : (c₀.mem.pcb j).pid = pid := by
    rw [← hc.pids]
    exact hpid
  rw [Sched.killPcb]
  refine ((Ensures.of_returns (wakeWaiting_spec hm hj)).and (hc.wakeWaiting hm.disc hpid₀)).bind ?_
  rintro _ c₁ ⟨⟨-, hm₁, hnil₁⟩, hc₁⟩
  refine ((Ensures.of_returns (unlockAll_spec hm₁ hnil₁ pid)).and (hc₁.releaseLoop _ hm₁.disc hm₁.waits)).bind ?_
  rintro _ c₂ ⟨⟨-, hm₂, -⟩, hc₂, hks, -⟩
  refine Ensures.seq (exec_releasePages j) (Ensures.seq (exec_setStatus _ _) (Ensures.modify_bind ?_))
  intro _ c₃ he
  obtain ⟨-, rfl⟩ := Prod.mk.inj (Option.some.inj (exec_remove_pcb_queue.symm.trans he))
  have hmove : Clearing pid c₀ (St.move c₂ j none .TASK_EXITED) :=
    hc₂.move hm₂.disc (fun ho => ho.1 hpid₀) (Or.inr ⟨rfl, hpid₀⟩)
  exact ⟨hmove.of_mem rfl rfl rfl, fun k hk => hks k (List.mem_finRange k) hk⟩

/-- The rounds of `do_kill`. Nobody is alive at the end, and no mutex below `last_lockid` is held if there
was a round or none was held before. -/
theorem killLoop (fuel : ℕ) (ha : At h i c) (hi : (c.mem.pcb i).pid ≠ pid)
    (hother : ∀ h', h' ≠ h → ∀ x, c.mem.current_running h' = some x → (c.mem.pcb x).pid ≠ pid)
    (hc : Clearing pid c₀ c) :
    Ensures listed c (killLoop h i pid fuel) fun _ c' =>
    Clearing pid c₀ c' ∧ (∀ x, (c'.mem.pcb x).pid = pid → c'.mem.status x = .TASK_EXITED) ∧
      (((∀ x, (c.mem.pcb x).pid = pid → c.mem.status x = .TASK_EXITED) → ∀ k : Handle,
        k.1 < c₀.mem.last_lockid → ¬ Held c.mem pid k) →
        ∀ k : Handle, k.1 < c₀.mem.last_lockid → ¬ Held c'.mem pid k) := by
  induction fuel generalizing c with
  | zero => exact Ensures.stop
  | succ fuel ih =>
    rw [Sched.killLoop]
    refine Ensures.get_bind ?_
    cases hp : pid_to_pcb_id c.mem.pcb pid with
    | none =>
      have hex : ∀ x, (c.mem.pcb x).pid = pid → c.mem.status x = .TASK_EXITED := fun x hx => pid_to_pcb_id_none hp hx
      exact Ensures.modify ⟨hc.of_mem rfl rfl rfl, hex, fun hnone => hnone hex⟩
    | some j =>
      obtain ⟨hpid, hst⟩ := pid_to_pcb_id_some hp
      have hji : j ≠ i := by
        rintro rfl
        exact hi hpid
      simp only [if_neg hji]
      refine ((Ensures.of_returns (killRound_spec ha hp hji hother)).and (hc.killPcb (ha.mid h) hpid hst)).bind ?_
      rintro _ c₁ ⟨⟨ha₁, hk₁, -, hother₁⟩, hc₁, hnone₁⟩
      refine (ih ha₁ (by rw [hk₁.pid]; exact hi) hother₁ hc₁).mono ?_
      rintro _ c' ⟨hc', hex', hnone'⟩
      exact ⟨hc', hex', fun _ => hnone' fun _ => hnone₁⟩

end Clearing

/-! ### The whole call -/

/-- When the call is over and everything that was held is released, it has cleaned up. -/
theorem Clearing.cleansUp (hc : Clearing pid c c') (hinv : Inv c')
    (hex : ∀ x, (c'.mem.pcb x).pid = pid → c'.mem.status x = .TASK_EXITED)
    (hnone : ∀ k, ¬ Held c'.mem pid k) : CleansUp pid c c' := by
  refine ⟨fun x hx => ⟨hex x hx, hinv.disc.free_exited (hex x hx)⟩, fun x hx hhit => ?_, hnone, hc.status, hc.order⟩
  have hready : x ∈ c'.dev .ready_queue := by
    rcases hhit with ⟨j, hj, hxj⟩ | ⟨k, hk, hxk⟩
    · refine (hc.stays _ x hxj hx).resolve_left fun hin => ?_
      exact hinv.waits _ _ hin (hex j (by rw [hc.pids]; exact hj))
    · refine (hc.stays _ x hxk hx).resolve_left fun hin => ?_
      have hlocked : (c'.mem.mlocks k).locked = true := hinv.waits _ _ hin
      rcases hc.mutex k with e | ⟨e, -⟩
      · refine hnone k ?_
        rw [Held, e]
        exact hk
      · rw [hlocked] at e
        cases e
  exact ⟨hinv.disc.ready_iff.mpr hready, hready⟩

/-- `do_kill(pid)` cleans up exactly when what the process holds can be released. -/
theorem do_kill_ensures (ha : At h i c) (hi : (c.mem.pcb i).pid ≠ pid)
    (hother : ∀ h', h' ≠ h → ∀ x, c.mem.current_running h' = some x → (c.mem.pcb x).pid ≠ pid) :
    Ensures listed c (do_kill h i pid) fun _ c' => Inv c' → (CleansUp pid c c' ↔ Releasable pid c.mem) := by
  by_cases hlive : ∃ x, (c.mem.pcb x).pid = pid ∧ c.mem.status x ≠ .TASK_EXITED
  · refine (Clearing.killLoop (NUM_MAX_TASK + 1) ha hi hother (.refl pid c)).mono ?_
    rintro _ c' ⟨hc, hex, hnone⟩ hinv
    constructor
    · intro hclean k hk
      refine ⟨?_, hlive⟩
      rcases hc.mutex k with e | ⟨-, -, hl⟩
      · refine absurd ?_ (hclean.mutex k)
        rw [Held, e]
        exact hk
      · exact hl
    · intro hrel
      refine hc.cleansUp hinv hex fun k hk => ?_
      refine hnone (fun hall => ?_) k (hrel k (hc.held hk)).1 hk
      obtain ⟨x, hx, hst⟩ := hlive
      exact absurd (hall x hx) hst
  · have hex : ∀ x, (c.mem.pcb x).pid = pid → c.mem.status x = .TASK_EXITED :=
      fun x hx => by_contra fun e => hlive ⟨x, hx, e⟩
    have hp : pid_to_pcb_id c.mem.pcb pid = none := by
      cases hp : pid_to_pcb_id c.mem.pcb pid with
      | none => rfl
      | some j => exact absurd ⟨j, pid_to_pcb_id_some hp⟩ hlive
    rw [do_kill, Sched.killLoop]
    refine Ensures.get_bind ?_
    simp only [hp]
    refine Ensures.modify fun hinv => ?_
    have hc := (Clearing.refl pid c).of_mem
      (m := { c.mem with a0 := Function.update c.mem.a0 i 1, resume := Function.update c.mem.resume i .user })
      rfl rfl rfl
    constructor
    · exact fun hclean k hk => absurd hk (hclean.mutex k)
    · exact fun hrel => hc.cleansUp hinv hex fun k hk => hlive (hrel k hk).2

/-- **Kill cleans up, as far as the mutexes are known.** On one hart and in every reachable state a `do_kill`
of another process terminates. It leaves nothing of the process behind, and changes nothing else, exactly
when the mutexes that the process holds have been given out by `do_mutex_lock_init` and, if there are any,
one of its tasks is alive. -/
theorem do_kill_cleansUp_iff (hr : Reach (OneHart h₀) s)
    (hi : s.mem.current_running h₀ = some i) (hne : (s.mem.pcb i).pid ≠ pid) :
    ∃ (Q : Queues) (s' : Machine) (Q' : Queues),
    Repr Q s.dev ∧ exec pointers (act h₀ (.call (.do_kill pid))) s = some ((), s') ∧
      Repr Q' s'.dev ∧ (CleansUp pid ⟨s.mem, Q⟩ ⟨s'.mem, Q'⟩ ↔ Releasable pid s.mem) := by
  obtain ⟨Q, hrep, hinv⟩ := hr.soundOne
  have ha : At h₀ i ⟨s.mem, Q⟩ := ⟨hinv, hi⟩
  have hother : ∀ h', h' ≠ h₀ → ∀ x, s.mem.current_running h' = some x → (s.mem.pcb x).pid ≠ pid := by
    intro h' hne' x hx
    rw [hr.pid0 h' hne'] at hx
    cases hx
  have hex : (s.mem.pcb i).status ≠ .TASK_EXITED := by
    have hrun : (s.mem.pcb i).status = .TASK_RUNNING := ha.running
    rw [hrun]
    decide
  obtain ⟨⟨⟩, c', he, hinv'⟩ := do_kill_spec ha pid hother
  have hact : exec listed (act h₀ (.call (.do_kill pid))) ⟨s.mem, Q⟩ = some ((), c') := by
    rw [act, exec_bind, exec_get, Option.bind_some]
    simp only [hi, if_neg hex]
    exact he
  obtain ⟨L', he', hrep'⟩ := exec_pointers _ hrep hact
  exact ⟨Q, ⟨c'.mem, L'⟩, c'.dev, hrep, he', hrep', do_kill_ensures ha hne hother _ _ he hinv'⟩

/-- Four processes are started. The first initialises a mutex, the second locks it and starts a thread, the
third waits for the second, the fourth for the mutex, and the first runs again. -/
def waitedFor : List (Hart × Action) :=
  [(0, .call (.do_taskset_exec ⟨[], length_nil_lt⟩ 3)), (0, .call (.do_taskset_exec ⟨[], length_nil_lt⟩ 3)),
    (0, .call (.do_taskset_exec ⟨[], length_nil_lt⟩ 3)),
    (0, .call (.do_taskset_exec ⟨[], length_nil_lt⟩ 3)), (0, .timer),
    (0, .call (.do_mutex_lock_init 7)), (0, .timer), (0, .call (.do_mutex_lock_acquire ⟨0, lock_num_pos⟩)),
    (0, .call (.do_pthread_create 1)), (0, .timer), (0, .call (.do_waitpid 2)),
    (0, .call (.do_mutex_lock_acquire ⟨0, lock_num_pos⟩))]

/-- The second process is killed: it has two threads, holds a mutex, and two tasks wait for it. -/
theorem do_kill_cleansUp_holder : ∃ s : Machine, Held s.mem 2 ⟨0, by decide⟩ ∧
    ((s.mem.pcb ⟨4, by decide⟩).pid = 2 ∧ s.mem.status ⟨4, by decide⟩ = .TASK_READY) ∧
    (s.mem.status ⟨2, by decide⟩ = .TASK_BLOCKED ∧ s.mem.status ⟨3, by decide⟩ = .TASK_BLOCKED) ∧
    ∃ (Q : Queues) (s' : Machine) (Q' : Queues),
    Repr Q s.dev ∧ exec pointers (act 0 (.call (.do_kill 2))) s = some ((), s') ∧
      Repr Q' s'.dev ∧ CleansUp 2 ⟨s.mem, Q⟩ ⟨s'.mem, Q'⟩ := by
  have hrun : (stepsIf (fun m h a => decide (OneHart 0 m h a)) waitedFor .start).map (fun s => decide
      ((s.mem.current_running 0 = some ⟨0, by decide⟩ ∧ (s.mem.pcb ⟨0, by decide⟩).pid ≠ 2) ∧
        Held s.mem 2 ⟨0, by decide⟩ ∧
        ((s.mem.pcb ⟨4, by decide⟩).pid = 2 ∧ s.mem.status ⟨4, by decide⟩ = .TASK_READY) ∧
        (s.mem.status ⟨2, by decide⟩ = .TASK_BLOCKED ∧ s.mem.status ⟨3, by decide⟩ = .TASK_BLOCKED) ∧
        ∀ k : Handle, Held s.mem 2 k → k.1 < s.mem.last_lockid ∧ ∃ x,
        (s.mem.pcb x).pid = 2 ∧ (s.mem.pcb x).status ≠ .TASK_EXITED)) =
      some true := by
    decide +kernel
  obtain ⟨s, hs, hrun⟩ := Option.map_eq_some_iff.mp hrun
  obtain ⟨⟨hcur, hne⟩, hheld, hthread, hwait, hrel⟩ := of_decide_eq_true hrun
  have hr : Reach (OneHart 0) s := (Reach.boot boot_start).stepsIf (fun _ _ _ => of_decide_eq_true) hs
  obtain ⟨Q, s', Q', hQ, he, hQ', hiff⟩ := do_kill_cleansUp_iff hr hcur hne
  exact ⟨s, hheld, hthread, hwait, Q, s', Q', hQ, he, hQ', hiff.mpr hrel⟩

/-- Two processes are started, the second locks mutex 0, which nobody has initialised, and then the first runs again. -/
def locking : List (Hart × Action) :=
  meeting ++ [(0, .call .do_scheduler), (0, .call (.do_mutex_lock_acquire ⟨0, lock_num_pos⟩)),
    (0, .call .do_scheduler), (0, .resume fun _ => 0)]

/-- The second process holds a mutex that has not been given out: after `do_kill` it is still locked. -/
theorem do_kill_leaves_locked : ¬ ∀ (h₀ : Hart) (s : Machine) (i : Slot) (pid : Int32), Reach (OneHart h₀) s →
    s.mem.current_running h₀ = some i → (s.mem.pcb i).pid ≠ pid →
      ∃ (Q : Queues) (s' : Machine) (Q' : Queues),
      Repr Q s.dev ∧ exec pointers (act h₀ (.call (.do_kill pid))) s = some ((), s') ∧
        Repr Q' s'.dev ∧ CleansUp pid ⟨s.mem, Q⟩ ⟨s'.mem, Q'⟩ := by
  intro hall
  have hrun : (stepsIf (fun m h a => decide (OneHart 0 m h a)) locking .start).bind
      (fun s => (exec pointers (act 0 (.call (.do_kill 2))) s).map fun r =>
      decide (s.mem.current_running 0 = some ⟨0, by decide⟩ ∧
          (s.mem.pcb ⟨0, by decide⟩).pid ≠ 2 ∧ Held r.2.mem 2 ⟨0, by decide⟩)) = some true := by
    decide +kernel
  obtain ⟨s, hs, hrun⟩ := Option.bind_eq_some_iff.mp hrun
  obtain ⟨⟨⟨⟩, s₁⟩, hs₁, hrun⟩ := Option.map_eq_some_iff.mp hrun
  obtain ⟨hcur, hne, hheld⟩ := of_decide_eq_true hrun
  obtain ⟨Q, s', Q', -, he, -, hclean⟩ :=
    hall 0 s _ 2 ((Reach.boot boot_start).stepsIf (fun _ _ _ => of_decide_eq_true) hs) hcur hne
  obtain ⟨-, rfl⟩ := Prod.mk.inj (Option.some.inj (hs₁.symm.trans he))
  exact hclean.mutex _ hheld

end OsLab.Sched
