import OsLab.Sched.Runs

/-!
# Mutual exclusion

Who holds a mutex is a matter of history: the task to which `do_mutex_lock_acquire` returned last,
until it releases the mutex, waits on a condition with it, exits or is killed (`holder`). `Exclusive`
says that the acquire of a mutex never returns while somebody holds it.

The kernel only notes the pid of the holder, and a task that exits unlocks every mutex with its pid:
also one that is held by another thread of its process. When no thread that lives on holds a mutex
at such a moment, exclusion holds (`exclusive_of_reach`); one exit of a thread breaks it
(`exclusive_exit_fails`). None of this depends on the state of the queues.
-/

namespace OsLab.Sched

open Lib ProgM

/-- What an event does to the holder of mutex `k`. -/
def hold (k : Handle) (o : Option Slot) : Event → Option Slot
  | .acquired i k' => if k' = k then some i else o
  | .released i k' => if k' = k ∧ o = some i then none else o
  | .ended i => if o = some i then none else o
  | _ => o

/-- The task that holds mutex `k` after these events. -/
def holder (k : Handle) (log : List Event) : Option Slot := log.foldl (hold k) none

/-- The task to which the last acquire of mutex `k` returned. -/
def lastAcquirer (k : Handle) (log : List Event) : Option Slot :=
  log.foldl (fun o e => match e with
    | .acquired i k' => if k' = k then some i else o
    | _ => o) none

/-- An acquire returns only while nobody holds the mutex. -/
def Exclusive (log : List Event) : Prop := ∀ pre i k post, log = pre ++ .acquired i k :: post → holder k pre = none

variable {m m' : Kernel} {h : Hart} {i j : Slot} {k : Handle}

theorem holder_concat (k : Handle) (log : List Event) (e : Event) :
    holder k (log ++ [e]) = hold k (holder k log) e := by
  rw [holder, List.foldl_append]
  rfl

theorem lastAcquirer_of_holder (log : List Event) (hh : holder k log = some j) : lastAcquirer k log = some j := by
  induction log using List.reverseRecOn with
  | nil => cases hh
  | append_singleton log e ih =>
    rw [holder_concat] at hh
    rw [lastAcquirer, List.foldl_append]
    cases e with
    | acquired i k' =>
      simp only [hold] at hh
      simp only [List.foldl_cons, List.foldl_nil]
      split
      · next e => rwa [if_pos e] at hh
      · next e =>
        rw [if_neg e] at hh
        exact ih hh
    | released i k' =>
      simp only [hold] at hh
      split at hh
      · cases hh
      · exact ih hh
    | ended i =>
      simp only [hold] at hh
      split at hh
      · cases hh
      · exact ih hh
    | activated k' => exact ih hh
    | sent k' msg => exact ih hh
    | received k' msg => exact ih hh

theorem Exclusive.concat {log : List Event} (hx : Exclusive log) {e : Event}
    (he : ∀ i k, e = .acquired i k → holder k log = none) : Exclusive (log ++ [e]) := by
  intro pre i k post heq
  rcases List.eq_nil_or_concat post with rfl | ⟨post', e', rfl⟩
  · obtain ⟨rfl, h'⟩ := List.append_inj' heq rfl
    exact he i k (List.cons.inj h').1
  · rw [List.concat_eq_append, ← List.cons_append, ← List.append_assoc] at heq
    obtain ⟨rfl, -⟩ := List.append_inj' heq rfl
    exact hx pre i k post' rfl

/-! ### The invariant -/

/-- The mutexes that are held, but for those in `X`, are locked in the name of the holder's process. -/
structure OwnedBut (X : Handle → Slot → Prop) (m : Kernel) : Prop where
  excl : Exclusive m.log
  alive : ∀ k j, holder k m.log = some j → m.status j ≠ .TASK_EXITED
  locked : ∀ k j, ¬ X k j → holder k m.log = some j → (m.mlocks k).locked = true ∧ (m.mlocks k).pid = (m.pcb j).pid

/-- Every mutex that is held is locked in the name of the holder's process. -/
abbrev Owned : Kernel → Prop := OwnedBut fun _ _ => False

/-- What every step keeps. -/
structure Guard (m : Kernel) : Prop where
  owned : Owned m
  live : Live m

theorem OwnedBut.of_eq {X : Handle → Slot → Prop} (ho : OwnedBut X m) (hx : Exclusive m'.log)
    (hh : ∀ k, holder k m'.log = holder k m.log) (hs : ∀ i, m'.status i = .TASK_EXITED → m.status i = .TASK_EXITED)
    (hl : ∀ k, (m'.mlocks k).locked = (m.mlocks k).locked ∧ (m'.mlocks k).pid = (m.mlocks k).pid)
    (hp : ∀ j, m.status j ≠ .TASK_EXITED → (m'.pcb j).pid = (m.pcb j).pid) : OwnedBut X m' := by
  refine ⟨hx, fun k j hj e => ?_, fun k j hX hj => ?_⟩
  · rw [hh] at hj
    exact ho.alive k j hj (hs j e)
  · rw [hh] at hj
    rw [(hl k).1, (hl k).2, hp j (ho.alive k j hj)]
    exact ho.locked k j hX hj

/-- The tasks in `X` hold nothing. -/
theorem OwnedBut.owned {X : Handle → Slot → Prop} (ho : OwnedBut X m)
    (hX : ∀ k j, X k j → holder k m.log ≠ some j) : Owned m :=
  ⟨ho.excl, ho.alive, fun k j _ hj => ho.locked k j (fun hx => hX k j hx hj) hj⟩

theorem Guard.noise {o : Option Slot} (hg : Guard m) (n : Noise h o m m')
    (ho : ∀ i, o = some i → m.status i ≠ .TASK_EXITED) : Guard m' := by
  refine ⟨hg.owned.of_eq ?_ (fun k => by rw [n.log]) n.exited (fun k => ⟨n.locked k, n.owner k⟩) fun j _ => n.pid j,
    n.live ho hg.live⟩
  rw [n.log]
  exact hg.owned.excl

/-- The step of task `o` keeps the invariant. -/
def Kept (o : Option Slot) (m m' : Kernel) : Prop :=
  (∀ i, o = some i → m.status i ≠ .TASK_EXITED) → Guard m → (∀ i, o = some i → m'.status i ≠ .TASK_EXITED) ∧ Guard m'

instance {o : Option Slot} : Std.Refl (Kept o) := ⟨fun _ ho hg => ⟨ho, hg⟩⟩

instance {o : Option Slot} : IsTrans Kernel (Kept o) := ⟨fun _ _ _ h₁ h₂ ho hg => h₂ (h₁ ho hg).1 (h₁ ho hg).2⟩

variable {o : Option Slot} {q : Queue}

theorem Noise.kept {α : Type} {x : SchedM α} (hx : Keeps (Noise h o) x) : Keeps (Kept o) x :=
  hx.mono fun _ _ n ho hg => ⟨fun i hi e => ho i hi (n.exited i e), hg.noise n ho⟩

/-- Variables change that have nothing to do with mutexes. -/
theorem modify_kept {g : Kernel → Kernel} (hx : ∀ m, Exclusive m.log → Exclusive (g m).log)
    (hh : ∀ m k, holder k (g m).log = holder k m.log)
    (hs : ∀ m, (g m).status = m.status) (hl : ∀ m, (g m).mlocks = m.mlocks)
    (hp : ∀ m j, ((g m).pcb j).pid = (m.pcb j).pid) (hc : ∀ m, (g m).current_running = m.current_running)
    (hr : ∀ m i, (g m).resume i = m.resume i ∨ (g m).resume i = .user) : Keeps (Kept o) (modify g : SchedM PUnit) := by
  refine Keeps.modify fun m ho hg => ⟨by rwa [hs], ?_, hg.live.of_eq (hc m) (hr m) fun i e => by rwa [hs] at e⟩
  exact hg.owned.of_eq (hx m hg.owned.excl) (hh m) (fun i e => by rwa [hs] at e)
    (fun k => by rw [hl]; exact ⟨rfl, rfl⟩) fun j _ => hp m j

theorem setMailbox_kept (b : Mailbox) : Keeps (Kept o) (setMailbox k b) :=
  modify_kept (fun _ hx => hx) (fun _ _ => rfl) (fun _ => rfl)
    (fun _ => rfl) (fun _ _ => rfl) (fun _ => rfl) fun _ _ => Or.inl rfl

/-- An event that is not about mutexes. -/
theorem record_kept {e : Event} (hh : ∀ k o, hold k o e = o) : Keeps (Kept o) (record e) := by
  refine modify_kept (fun m hx => hx.concat ?_) (fun m k => ?_) (fun _ => rfl) (fun _ => rfl)
    (fun _ _ => rfl) (fun _ => rfl) fun _ _ => Or.inl rfl
  · rintro i k rfl
    have := hh k none
    simp [hold] at this
  · rw [holder_concat, hh]

/-! ### Acquire and release -/

theorem do_mutex_lock_acquire_kept : Keeps (Kept (some i)) (do_mutex_lock_acquire h i k) := by
  refine Keeps.get_bind fun m => Partial.ite (fun _ => Noise.kept (blockIn_noise _) m) fun hfree => ?_
  refine Partial.bind (q := fun _ m₁ =>
    m₁ = { m with
      mlocks := Function.update m.mlocks k { m.mlocks k with locked := true, pid := (m.pcb i).pid } })
    (Partial.modify rfl) fun _ m₁ h₁ => ?_
  subst h₁
  refine Partial.bind (q := fun _ m₂ => Kept (some i) m m₂)
    (Partial.modify fun ho hg => ⟨ho, ?_, hg.live⟩) fun _ m₂ k₂ => ?_
  · have hnone : holder k m.log = none := by
      rw [Option.eq_none_iff_forall_ne_some]
      exact fun j hj => hfree (hg.owned.locked k j id hj).1
    have hcases : ∀ k' j,
        holder k' (m.log ++ [.acquired i k]) = some j → k' = k ∧ j = i ∨ k' ≠ k ∧ holder k' m.log = some j := by
      intro k' j hj
      rw [holder_concat, hold] at hj
      split at hj
      · next e => exact Or.inl ⟨e.symm, (Option.some.inj hj).symm⟩
      · next e => exact Or.inr ⟨fun e' => e e'.symm, hj⟩
    refine ⟨hg.owned.excl.concat ?_, fun k' j hj => ?_, fun k' j hX hj => ?_⟩
    · intro j k' e
      cases e
      exact hnone
    · rcases hcases k' j hj with ⟨-, rfl⟩ | ⟨-, hj⟩
      · exact ho j rfl
      · exact hg.owned.alive k' j hj
    · rcases hcases k' j hj with ⟨rfl, rfl⟩ | ⟨hne, hj⟩
      · simp
      · simpa [hne] using hg.owned.locked k' j id hj
  · exact (Noise.kept (h := h) (finish_noise _) m₂).mono fun _ m₃ k₃ => IsTrans.trans _ _ _ k₂ k₃

/-- A mutex is released by the task to which it was given last. -/
theorem do_mutex_lock_release_kept (hl : lastAcquirer k m.log = some i) :
    Partial m (do_mutex_lock_release i k) fun _ m' => Kept o m m' := by
  refine Partial.bind (q := fun _ m₁ => m₁ = { m with log := m.log ++ [.released i k] })
    (Partial.modify rfl) fun _ m₁ h₁ => ?_
  subst h₁
  refine Partial.get_bind (Partial.bind (q := fun _ m₂ => Kept o m m₂)
    (Partial.modify fun ho hg => ⟨ho, ?_, hg.live⟩) fun _ m₂ k₂ => ?_)
  · have hcases : ∀ k' j, holder k' (m.log ++ [.released i k]) = some j → k' ≠ k ∧ holder k' m.log = some j := by
      intro k' j hj
      rw [holder_concat, hold] at hj
      split at hj
      · cases hj
      · next e =>
        refine ⟨?_, hj⟩
        rintro rfl
        refine e ⟨rfl, ?_⟩
        rw [hj, ← lastAcquirer_of_holder m.log hj, hl]
    refine ⟨hg.owned.excl.concat nofun, fun k' j hj => hg.owned.alive k' j (hcases k' j hj).2, fun k' j hX hj => ?_⟩
    obtain ⟨hne, hj⟩ := hcases k' j hj
    simpa [hne] using hg.owned.locked k' j id hj
  · exact (Noise.kept (h := 0) wakeAll_noise m₂).mono fun _ m₃ k₃ => IsTrans.trans _ _ _ k₂ k₃

theorem do_condition_wait_kept {c : Handle} (hl : lastAcquirer k m.log = some i) :
    Partial m (do_condition_wait h i c k) fun _ m' => Kept (some i) m m' := by
  refine (setResume_noise (h := h) _ m).bind fun _ m₁ n₁ =>
    (do_block_noise (h := h) (o := some i) m₁).bind fun _ m₂ n₂ => ?_
  have n : Noise h (some i) m m₂ := IsTrans.trans _ _ _ n₁ n₂
  have k₁ : Kept (some i) m m₂ := fun ho hg => ⟨fun j hj e => ho j hj (n.exited j e), hg.noise n ho⟩
  refine (do_mutex_lock_release_kept (o := some i) (by rw [n.log]; exact hl)).bind fun _ m₃ k₂ => ?_
  exact (Noise.kept (o := some i) do_scheduler_noise m₃).mono fun _ m₄ k₃ =>
    IsTrans.trans _ _ _ k₁ (IsTrans.trans _ _ _ k₂ k₃)

/-! ### Exit and kill -/

/-- Tasks of process `p` are ended, and its mutexes unlocked. -/
structure Ends (p : Int32) (m m' : Kernel) : Prop where
  pids : ∀ i, (m'.pcb i).pid = (m.pcb i).pid
  lockid : m'.last_lockid = m.last_lockid
  resume : m'.resume = m.resume
  current : m'.current_running = m.current_running
  held : ∀ k j, holder k m'.log = some j → holder k m.log = some j
  owned : ∀ X : Handle → Slot → Prop,
    (∀ k j, k.1 < m.last_lockid → (m.pcb j).pid = p → X k j) → OwnedBut X m → OwnedBut X m'

variable {p : Int32}

instance : Std.Refl (Ends p) := ⟨fun _ => ⟨fun _ => rfl, rfl, rfl, rfl, fun _ _ e => e, fun _ _ ho => ho⟩⟩

instance : IsTrans Kernel (Ends p) := ⟨fun m₁ m₂ m₃ e₁ e₂ => by
  refine ⟨fun i => (e₂.pids i).trans (e₁.pids i), e₂.lockid.trans e₁.lockid, e₂.resume.trans e₁.resume,
    e₂.current.trans e₁.current, fun k j hj => e₁.held k j (e₂.held k j hj),
    fun X hX ho => e₂.owned X ?_ (e₁.owned X hX ho)⟩
  intro k j hk hj
  rw [e₁.lockid] at hk
  rw [e₁.pids] at hj
  exact hX k j hk hj⟩

/-- Nothing is noted in the history, and only mutexes of the process change. -/
theorem Ends.of_log (h1 : ∀ i, (m'.pcb i).pid = (m.pcb i).pid)
    (h2 : m'.last_lockid = m.last_lockid) (h3 : m'.resume = m.resume)
    (h4 : m'.current_running = m.current_running) (h5 : m'.log = m.log)
    (h6 : ∀ i, m'.status i = .TASK_EXITED → m.status i = .TASK_EXITED)
    (h7 : ∀ k, ¬ (k.1 < m.last_lockid ∧ (m.mlocks k).pid = p) → m'.mlocks k = m.mlocks k) : Ends p m m' := by
  refine ⟨h1, h2, h3, h4, fun k j hj => by
    rwa [h5] at hj, fun X hX ho => ⟨?_, fun k j hj e => ?_, fun k j hXj hj => ?_⟩⟩
  · rw [h5]
    exact ho.excl
  · rw [h5] at hj
    exact ho.alive k j hj (h6 j e)
  · rw [h5] at hj
    obtain ⟨hl, ho'⟩ := ho.locked k j hXj hj
    rw [h7 k, h1]
    · exact ⟨hl, ho'⟩
    · rintro ⟨hk, hkp⟩
      exact hXj (hX k j hk (by rw [← ho', hkp]))

theorem setStatus_ends {st : TaskStatus} (hs : st ≠ .TASK_EXITED) : Keeps (Ends p) (setStatus i st) := by
  refine Keeps.modify fun m => .of_log (fun j => ?_) rfl rfl rfl rfl (fun j => ?_) fun _ _ => rfl
  · by_cases hj : j = i
    · subst hj
      simp
    · simp [hj]
  · by_cases hj : j = i
    · subst hj
      simp [Kernel.status, hs]
    · simp [Kernel.status, hj]

theorem wakeLoop_ends (fuel : ℕ) : Keeps (Ends p) (wakeLoop q fuel) := by
  induction fuel with
  | zero => exact Keeps.stop
  | succ fuel ih =>
    rw [wakeLoop]
    refine (Keeps.perform (Op.next q (.head q))).bind fun n => ?_
    cases n with
    | task j =>
      refine Keeps.bind ((Keeps.perform (Op.unlink j)).bind fun _ => ?_) fun _ => ih
      exact (setStatus_ends (by decide)).bind fun _ => Keeps.perform _
    | head q' => exact Keeps.ite (Keeps.pure _) Keeps.stop

theorem releaseLoop_ends (ks : List Handle) : Keeps (Ends p) (releaseLoop p ks) := by
  induction ks with
  | nil => exact Keeps.pure _
  | cons k ks ih =>
    refine Keeps.get_bind fun m => Partial.bind (q := fun _ m₁ => Ends p m m₁) ?_ fun _ m₁ e => ?_
    · refine Partial.ite (fun hk => Partial.get_bind ?_) fun _ => Partial.pure (Std.Refl.refl m)
      refine Partial.bind (q := fun _ m₁ => Ends p m m₁) (Partial.modify ?_) fun _ m₁ e₁ => ?_
      · refine .of_log (fun _ => rfl) rfl rfl rfl rfl (fun _ e => e) fun k' hk' => Function.update_of_ne ?_ ..
        rintro rfl
        exact hk' ⟨hk.1, hk.2.2⟩
      · exact (wakeLoop_ends _ m₁).mono fun _ m₂ e₂ => IsTrans.trans _ _ _ e₁ e₂
    · exact (ih m₁).mono fun _ m₂ e₂ => IsTrans.trans _ _ _ e e₂

theorem releasePages_ends : Keeps (Ends p) (releasePages i) :=
  Keeps.read fun _ => ifThen_keeps (Keeps.perform (Op.releasePages _ _))

/-- The end of a task: from then on it holds nothing. -/
theorem ended_bind {x : SchedM Unit} {post : Unit → Kernel → Prop}
    (hx : ∀ m', Ends p m m' → (∀ k, holder k m'.log ≠ some i) → Partial m' x post) : Partial m (do
      setStatus i .TASK_EXITED
      record (.ended i)
      x) post := by
  refine Partial.bind (q := fun _ m₁ =>
    m₁ = { m with pcb := Function.update m.pcb i { m.pcb i with status := .TASK_EXITED } })
    (Partial.modify rfl) fun _ m₁ h₁ => ?_
  subst h₁
  have hcases : ∀ k j, holder k (m.log ++ [.ended i]) = some j → j ≠ i ∧ holder k m.log = some j := by
    intro k j hj
    rw [holder_concat, hold] at hj
    split at hj
    · cases hj
    · next e =>
      refine ⟨?_, hj⟩
      rintro rfl
      exact e hj
  have hpid : ∀ j, (Function.update m.pcb i { m.pcb i with status := .TASK_EXITED } j).pid = (m.pcb j).pid := by
    intro j
    by_cases hj : j = i
    · subst hj
      simp
    · simp [hj]
  refine Partial.bind (q := fun _ m₂ => Ends p m m₂ ∧ ∀ k, holder k m₂.log ≠ some i)
    (Partial.modify ⟨⟨hpid, rfl, rfl, rfl,
    fun k j hj => (hcases k j hj).2, fun X hX ho => ⟨?_, fun k j hj => ?_, fun k j hXj hj => ?_⟩⟩, ?_⟩) fun _ m₂ h₂ =>
    hx m₂ h₂.1 h₂.2
  · exact ho.excl.concat nofun
  · obtain ⟨hne, hj⟩ := hcases k j hj
    simpa [Kernel.status, hne] using ho.alive k j hj
  · obtain ⟨hne, hj⟩ := hcases k j hj
    rw [hpid]
    exact ho.locked k j hXj hj
  · exact fun k hk => (hcases k i hk).1 rfl

/-- No hart is in the kernel. -/
def AllUser (m : Kernel) : Prop := ∀ h i, m.current_running h = some i → m.resume i = .user

theorem AllUser.ends (hu : AllUser m) (e : Ends p m m') : AllUser m' := by
  intro h i hi
  rw [e.resume]
  rw [e.current] at hi
  exact hu h i hi

theorem AllUser.live (hu : AllUser m) : Live m := fun h i hi hr => absurd (hu h i hi) hr

/-- `do_exit`, when the other threads of the process hold nothing. -/
theorem do_exit_guard (hu : AllUser m)
    (ho : OwnedBut (fun k j => k.1 < m.last_lockid ∧ (m.pcb j).pid = (m.pcb i).pid) m)
    (hx : ∀ k j, k.1 < m.last_lockid → (m.pcb j).pid = (m.pcb i).pid → holder k m.log = some j → j = i) :
    Partial m (do_exit h i) fun _ m' => Guard m' := by
  refine (wakeLoop_ends (p := (m.pcb i).pid) _ m).bind fun _ m₁ e₁ => Partial.get_bind ?_
  rw [e₁.pids]
  refine (releaseLoop_ends (p := (m.pcb i).pid) _ m₁).bind fun _ m₂ e₂ =>
    (releasePages_ends (p := (m.pcb i).pid) m₂).bind fun _ m₃ e₃ => ?_
  have e : Ends (m.pcb i).pid m m₃ := IsTrans.trans _ _ _ e₁ (IsTrans.trans _ _ _ e₂ e₃)
  refine ended_bind (p := (m.pcb i).pid) fun m₄ e₄ hi => (do_scheduler_noise (o := none) m₄).mono fun _ m₅ n => ?_
  have e' : Ends (m.pcb i).pid m m₄ := IsTrans.trans _ _ _ e e₄
  refine Guard.noise ⟨?_, (hu.ends e').live⟩ n nofun
  refine (e'.owned _ (fun k j hk hj => ⟨hk, hj⟩) ho).owned ?_
  rintro k j ⟨hk, hj⟩ hh
  obtain rfl := hx k j hk hj (e'.held k j hh)
  exact hi k hh

theorem killPcb_ends (j : Slot) : Keeps (Ends p) (killPcb j p) := by
  intro m
  refine (wakeLoop_ends (p := p) _ m).bind fun _ m₁ e₁ => (releaseLoop_ends (p := p) _ m₁).bind fun _ m₂ e₂ => ?_
  refine (releasePages_ends (p := p) m₂).bind fun _ m₃ e₃ => ended_bind (p := p) fun m₄ e₄ _ => ?_
  have hrest : Keeps (Ends p) (remove_pcb_queue j) :=
    (Keeps.perform (Op.linked j)).bind fun _ => Keeps.ite (Keeps.perform (Op.unlink j)) (Keeps.pure _)
  refine (hrest m₄).mono fun _ m₅ e₅ => ?_
  exact IsTrans.trans _ _ _ e₁ (IsTrans.trans _ _ _ e₂ (IsTrans.trans _ _ _ e₃ (IsTrans.trans _ _ _ e₄ e₅)))

/-- The first task that `pid_to_pcb_id` passes over has ended. -/
theorem pid_to_pcb_id_lt {f : Slot → Pcb} (hj : pid_to_pcb_id f p = some j) (hlt : i < j) (hi : (f i).pid = p) :
    (f i).status = .TASK_EXITED := by
  rw [pid_to_pcb_id, List.find?_eq_some_iff_getElem] at hj
  obtain ⟨-, n, hn, he, hall⟩ := hj
  have hin : i.1 < n := by
    rw [List.getElem_finRange] at he
    rw [← he] at hlt
    exact hlt
  have := hall i.1 hin
  simpa [hi] using this

theorem pid_to_pcb_id_none {f : Slot → Pcb} (hn : pid_to_pcb_id f p = none) (hi : (f i).pid = p) :
    (f i).status = .TASK_EXITED := by
  rw [pid_to_pcb_id, List.find?_eq_none] at hn
  simpa [hi] using hn i (List.mem_finRange i)

/-- `do_kill`, when the threads of the calling task that it does not come to hold nothing. -/
theorem killLoop_guard (fuel : ℕ) (hu : AllUser m)
    (ho : OwnedBut (fun k j => k.1 < m.last_lockid ∧ (m.pcb j).pid = p) m)
    (hx : (m.pcb i).pid = p → ∀ k j, k.1 < m.last_lockid → (m.pcb j).pid = p → holder k m.log = some j → j ≤ i) :
    Partial m (killLoop h i p fuel) fun _ m' => Guard m' := by
  induction fuel generalizing m with
  | zero => exact Partial.stop
  | succ fuel ih =>
    refine Partial.get_bind ?_
    split
    · next hn =>
      refine (finish_noise (h := h) (o := none) _ m).mono fun _ m' n => Guard.noise ⟨ho.owned ?_, hu.live⟩ n nofun
      rintro k j ⟨-, hj⟩ hh
      exact ho.alive k j hh (pid_to_pcb_id_none hn hj)
    · next j hj =>
      refine Partial.ite (fun hji => ?_) fun hji => ?_
      · subst hji
        obtain ⟨hp, -⟩ := pid_to_pcb_id_some hj
        subst hp
        refine do_exit_guard hu ho fun k j' hk hj' hh => le_antisymm (hx rfl k j' hk hj' hh) ?_
        by_contra hlt
        exact ho.alive k j' hh (pid_to_pcb_id_lt hj (not_le.mp hlt) hj')
      · refine (killPcb_ends j m).bind fun _ m' e => ih (hu.ends e) ?_ ?_
        · rw [e.lockid]
          simp only [e.pids]
          exact e.owned _ (fun k j hk hj => ⟨hk, hj⟩) ho
        · intro hi k j' hk hj' hh
          rw [e.pids] at hi hj'
          rw [e.lockid] at hk
          exact hx hi k j' hk hj' (e.held k j' hh)

/-! ### New tasks and mailboxes -/

/-- A free slot gets a new pid: a task that has ended holds nothing. -/
theorem setPcb_kept {f : Pcb → Pcb} (hs : ∀ b, (f b).status = b.status) (hj : m.status j = .TASK_EXITED) :
    Partial m (setPcb j f) fun _ m' => Kept o m m' := by
  have hst : ∀ x, (Function.update m.pcb j (f (m.pcb j)) x).status = m.status x := by
    intro x
    by_cases hx : x = j
    · subst hx
      simp [hs, Kernel.status]
    · simp [hx, Kernel.status]
  refine Partial.modify fun ho hg =>
    ⟨fun i hi => ?_, ?_, hg.live.of_eq rfl (fun _ => Or.inl rfl) fun x e => (hst x).symm.trans e⟩
  · have := ho i hi
    rwa [← hst i] at this
  · refine hg.owned.of_eq hg.owned.excl (fun _ => rfl)
      (fun x e => (hst x).symm.trans e) (fun _ => ⟨rfl, rfl⟩) fun x hx => ?_
    have hne : x ≠ j := by
      rintro rfl
      exact hx hj
    simp [hne]

/-- The rest of `init_process_pcb` and `init_pthread_pcb`. -/
theorem setResume_kept : Keeps (Kept o) (setResume j .user) := by
  refine modify_kept (fun _ hx => hx) (fun _ _ => rfl) (fun _ => rfl)
    (fun _ => rfl) (fun _ _ => rfl) (fun _ => rfl) fun m x => ?_
  by_cases hx : x = j
  · subst hx
    simp
  · simp [hx]

theorem do_exec_kept (name : Name) : Keeps (Kept o) (do_exec h name) := by
  refine Keeps.get_bind fun m => ?_
  split
  · exact Partial.pure (Std.Refl.refl m)
  · split
    · exact Partial.pure (Std.Refl.refl m)
    · next j hj =>
      have hrest : ∀ task : ℕ, Keeps (Kept o) (do
          initQueue (.wait j)
          processPages j (m.process_id + 1) task
          setResume j .user
          add_readyqueue j
          pure (m.process_id + 1) : SchedM Int32) := fun task =>
        (Keeps.perform (Op.init _)).bind fun _ =>
            (Keeps.perform (Op.processPages _ _ _)).bind fun _ => setResume_kept.bind fun _ =>
          (Noise.kept (h := h) add_readyqueue_noise).bind fun _ => Keeps.pure _
      refine Partial.bind (q := fun _ m₁ => m₁.status j = .TASK_EXITED ∧ Kept o m m₁)
        (Partial.modify ⟨get_free_pcb_some hj, fun ho hg => ⟨ho, ?_, hg.live⟩⟩) ?_
      · exact ⟨hg.owned.excl, hg.owned.alive, hg.owned.locked⟩
      rintro _ m₁ ⟨hj₁, k₁⟩
      refine (setPcb_kept (o := o) ?_ hj₁).bind fun _ m₂ k₂ => (hrest _ m₂).mono fun _ m₃ k₃ => ?_
      · exact fun _ => rfl
      · exact IsTrans.trans _ _ _ k₁ (IsTrans.trans _ _ _ k₂ k₃)

theorem do_taskset_exec_kept (name : Name) (mask : UInt64) : Keeps (Kept o) (do_taskset_exec h name mask) := by
  refine (do_exec_kept name).bind fun pid => Keeps.ite (Keeps.pure _) (Keeps.read fun s => ?_)
  split
  · exact Keeps.stop
  · exact Keeps.bind (Noise.kept (h := h) (setPcb_noise (fun _ => rfl) fun _ e => e)) fun _ => Keeps.pure _

theorem do_pthread_create_kept (thread : Int32) : Keeps (Kept o) (do_pthread_create i thread) := by
  refine Keeps.get_bind fun m => ?_
  split
  · exact Noise.kept (h := 0) (finish_noise _) m
  · next j hj =>
    have hrest : Keeps (Kept o) (do
        initQueue (.wait j)
        threadPages j (m.pcb i).pid thread
        setResume j .user
        add_readyqueue j
        finish i 0 : SchedM Unit) :=
      (Keeps.perform (Op.init _)).bind fun _ =>
          (Keeps.perform (Op.threadPages _ _ _)).bind fun _ => setResume_kept.bind fun _ =>
        Noise.kept (h := 0) (add_readyqueue_noise.bind fun _ => finish_noise _)
    refine (setPcb_kept (o := o) ?_ (get_free_pcb_some hj)).bind fun _ m₁ k₁ => (hrest m₁).mono fun _ m₂ k₂ => ?_
    · exact fun _ => rfl
    · exact IsTrans.trans _ _ _ k₁ k₂

theorem do_mbox_open_kept (name : Name) : Keeps (Kept o) (do_mbox_open i name) := by
  refine Keeps.read fun s => ?_
  split
  · exact (setMailbox_kept _).bind fun _ => Noise.kept (h := 0) (finish_noise _)
  · split
    · exact Noise.kept (h := 0) (finish_noise _)
    · refine (setMailbox_kept _).bind fun _ => (Keeps.perform (Op.init _)).bind fun _ =>
        (Keeps.perform (Op.init _)).bind fun _ => ?_
      exact (record_kept fun _ _ => rfl).bind fun _ => Noise.kept (h := 0) (finish_noise _)

theorem do_mbox_close_kept : Keeps (Kept o) (do_mbox_close i k) :=
  Keeps.read fun _ => (setMailbox_kept _).bind fun _ => Noise.kept (h := 0) (finish_noise _)

theorem do_mbox_send_kept (msg : ℕ → UInt8) (len n : ℤ) : Keeps (Kept (some i)) (do_mbox_send h i k msg len n) := by
  refine Keeps.read fun s => Keeps.ite Keeps.stop (Keeps.ite (Keeps.ite Keeps.stop ?_) (Noise.kept (blockIn_noise _)))
  refine (setMailbox_kept _).bind fun _ => (record_kept fun _ _ => rfl).bind fun _ => Noise.kept (h := h) ?_
  exact wakeAll_noise.bind fun _ => finish_noise _

theorem do_mbox_recv_kept (len n : ℤ) : Keeps (Kept (some i)) (do_mbox_recv h i k len n) := by
  refine Keeps.read fun s => Keeps.ite (Keeps.ite Keeps.stop ?_) (Noise.kept (blockIn_noise _))
  refine (setMailbox_kept _).bind fun _ => (record_kept fun _ _ => rfl).bind fun _ => Noise.kept (h := h) ?_
  exact wakeAll_noise.bind fun _ => finish_noise _

/-! ### Runs -/

/-- A mutex is released, also by `do_condition_wait`, only by the task to which its acquire returned last. -/
def ReleaseOk (m : Kernel) (i : Slot) : Call → Prop
  | .do_mutex_lock_release k => lastAcquirer k m.log = some i
  | .do_condition_wait _ k => lastAcquirer k m.log = some i
  | _ => True

/-- A task ends only while no thread of its process that lives on holds a mutex. `do_kill` of the own
process does not come to the threads in the slots after the calling one. -/
def EndOk (m : Kernel) (i : Slot) : Call → Prop
  | .do_exit => ∀ k j, k.1 < m.last_lockid → (m.pcb j).pid = (m.pcb i).pid → holder k m.log = some j → j = i
  | .do_kill pid => (m.pcb i).pid = pid →
      ∀ k j, k.1 < m.last_lockid → (m.pcb j).pid = pid → holder k m.log = some j → j ≤ i
  | _ => True

/-- Every release is by the last acquirer. -/
def Releases (m : Kernel) (h : Hart) (a : Action) : Prop :=
  ∀ i c, m.current_running h = some i → a = .call c → ReleaseOk m i c

/-- And every end leaves the mutexes of other threads alone. -/
def MutexOk (m : Kernel) (h : Hart) (a : Action) : Prop :=
  Releases m h a ∧ ∀ i c, m.current_running h = some i → a = .call c → EndOk m i c

instance (m : Kernel) (i : Slot) (c : Call) : Decidable (ReleaseOk m i c) := by
  unfold ReleaseOk
  rcases c <;> infer_instance

instance (m : Kernel) (i : Slot) (c : Call) : Decidable (EndOk m i c) := by
  unfold EndOk
  rcases c <;> infer_instance

instance (m : Kernel) (h : Hart) (a : Action) : Decidable (MutexOk m h a) :=
  match a with
  | .call c => decidable_of_iff (∀ i ∈ m.current_running h, ReleaseOk m i c ∧ EndOk m i c)
      ⟨fun hp => ⟨fun i _ hi e => Action.call.inj e ▸ (hp i hi).1, fun i _ hi e => Action.call.inj e ▸ (hp i hi).2⟩,
        fun hp i hi => ⟨hp.1 i c hi rfl, hp.2 i c hi rfl⟩⟩
  | .timer => isTrue (by constructor <;> rintro _ _ - ⟨⟩)
  | .resume _ => isTrue (by constructor <;> rintro _ _ - ⟨⟩)

theorem handle_syscall_guard (hg : Guard m) (hu : AllUser m)
    (hi : m.status i ≠ .TASK_EXITED) {c : Call} (hr : ReleaseOk m i c)
    (he : EndOk m i c) : Partial m (handle_syscall h i c) fun _ m' => Guard m' := by
  have hkept : ∀ {x : SchedM Unit},
      Partial m x (fun _ m' => Kept (some i) m m') → Partial m x fun _ m' => Guard m' := by
    intro x hx
    refine hx.mono fun _ m' k => (k ?_ hg).2
    rintro _ ⟨⟩
    exact hi
  cases c with
  | do_scheduler => exact hkept (Noise.kept (suspend_noise _) m)
  | do_sleep t => exact hkept (Noise.kept (do_sleep_noise t) m)
  | do_exec name => exact hkept (((do_exec_kept name).bind fun _ => Noise.kept (h := h) (finish_noise _)) m)
  | do_exit => exact do_exit_guard hu ⟨hg.owned.excl, hg.owned.alive, fun k j _ => hg.owned.locked k j id⟩ he
  | do_kill pid => exact killLoop_guard _ hu ⟨hg.owned.excl, hg.owned.alive, fun k j _ => hg.owned.locked k j id⟩ he
  | do_waitpid pid => exact hkept (Noise.kept (do_waitpid_noise pid) m)
  | do_taskset_exec name mask =>
      exact hkept (((do_taskset_exec_kept name mask).bind fun _ => Noise.kept (h := h) (finish_noise _)) m)
  | do_taskset_pid pid mask =>
      exact hkept (Noise.kept (h := h) ((do_taskset_pid_noise pid mask).bind fun _ => finish_noise _) m)
  | do_pthread_create thread => exact hkept (do_pthread_create_kept thread m)
  | do_pthread_join thread => exact hkept (Noise.kept (do_pthread_join_noise thread) m)
  | do_mutex_lock_init key => exact hkept (Noise.kept (h := h) (do_mutex_lock_init_noise key) m)
  | do_mutex_lock_acquire k => exact hkept (do_mutex_lock_acquire_kept m)
  | do_mutex_lock_release k =>
    refine hkept ((do_mutex_lock_release_kept (o := some i) hr).bind fun _ m₁ k₁ => ?_)
    exact (Noise.kept (h := h) (finish_noise _) m₁).mono fun _ m₂ k₂ => IsTrans.trans _ _ _ k₁ k₂
  | do_barrier_init key goal => exact hkept (Noise.kept (h := h) (do_barrier_init_noise key goal) m)
  | do_barrier_wait k => exact hkept (Noise.kept do_barrier_wait_noise m)
  | do_barrier_destroy k => exact hkept (Noise.kept (h := h) do_barrier_destroy_noise m)
  | do_condition_init key => exact hkept (Noise.kept (h := h) (do_condition_init_noise key) m)
  | do_condition_wait k m => exact hkept (do_condition_wait_kept hr)
  | do_condition_signal k => exact hkept (Noise.kept (h := h) do_condition_signal_noise m)
  | do_condition_broadcast k => exact hkept (Noise.kept (h := h) do_condition_broadcast_noise m)
  | do_condition_destroy k => exact hkept (Noise.kept (h := h) do_condition_destroy_noise m)
  | do_mbox_open name => exact hkept (do_mbox_open_kept name m)
  | do_mbox_close k => exact hkept (do_mbox_close_kept m)
  | do_mbox_send k msg len => exact hkept (do_mbox_send_kept msg len 0 m)
  | do_mbox_recv k len => exact hkept (do_mbox_recv_kept len 0 m)

theorem goOn_kept (msg : ℕ → UInt8) (r : Resume) : Keeps (Kept (some i)) (goOn h i msg r) := by
  cases r with
  | user => exact Keeps.pure _
  | ret v => exact Noise.kept (h := h) (finish_noise v)
  | acquire k => exact do_mutex_lock_acquire_kept
  | send k len n => exact do_mbox_send_kept msg len n
  | recv k len n => exact do_mbox_recv_kept len n

/-- What one step of hart `h` keeps. -/
theorem act_guard {a : Action} (hg : Guard m) (hen : Enabled m h a) (hp : MutexOk m h a) :
    Partial m (act h a) fun _ m' => Guard m' := by
  have hu : (∀ msg, a ≠ .resume msg) → AllUser m := by
    intro ha h' i hi
    by_contra hne
    by_cases hh : h' = h
    · subst hh
      cases a with
      | resume msg => exact ha msg rfl
      | timer => exact hen.2 ⟨i, hi, hne⟩
      | call c => exact hen.2 ⟨i, hi, hne⟩
    · exact hen.1 h' hh ⟨i, hi, hne⟩
  have hsched : Partial m (do_scheduler h) fun _ m' => Guard m' :=
    (do_scheduler_noise (o := none) m).mono fun _ m' n => hg.noise n nofun
  have hnone : ∀ {α : Type} {x : SchedM α}, Keeps (Kept none) x → Partial m x fun _ m' => Guard m' := fun hx =>
    (hx m).mono fun _ m' k => (k nofun hg).2
  refine Partial.get_bind ?_
  split
  · next i msg hi =>
    have hin : InKernel m h := hen.2
    obtain ⟨i', hi', hr⟩ := hin
    obtain rfl := Option.some.inj (hi.symm.trans hi')
    refine (goOn_kept msg _ m).mono fun _ m' k => (k ?_ hg).2
    rintro _ ⟨⟩
    exact hg.live h i hi hr
  · next i hi =>
    refine Partial.ite (fun _ => hsched) fun hex => (suspend_noise _ m).mono fun _ m' n => hg.noise n ?_
    rintro _ ⟨⟩
    exact hex
  · next i c hi =>
    exact Partial.ite (fun _ => hsched) fun hex =>
      handle_syscall_guard hg (hu nofun) hex (hp.1 i c hi rfl) (hp.2 i c hi rfl)
  · exact hsched
  · exact hnone ((do_exec_kept _).bind fun _ => Keeps.pure _)
  · exact hnone ((do_taskset_exec_kept _ _).bind fun _ => Keeps.pure _)
  · exact hnone (Noise.kept (h := h) ((do_taskset_pid_noise _ _).bind fun _ => Keeps.pure _))
  · exact Partial.stop

variable {s : Machine}

theorem Reach.guard (hr : Reach MutexOk s) : Guard s.mem := by
  induction hr with
  | boot hb =>
    refine ⟨⟨?_, ?_, ?_⟩, ?_⟩
    · intro pre i k post he
      rw [hb.log] at he
      exact absurd he.symm (by simp)
    · intro k j hj
      rw [hb.log] at hj
      cases hj
    · intro k j _ hj
      rw [hb.log] at hj
      cases hj
    · intro h i hi
      rw [hb.current] at hi
      cases hi
  | step _ hp hs ih => exact act_guard ih hs.1 hp _ pointers _ _ _ hs.2

/-- Mutual exclusion, in runs in which no task takes the mutexes of another thread away as it ends. -/
theorem exclusive_of_reach (hr : Reach MutexOk s) : Exclusive s.mem.log := hr.guard.owned.excl

/-- One process starts two threads and acquires a mutex. -/
def threads : List (Hart × Action) :=
  [(0, .call (.do_taskset_exec ⟨[], length_nil_lt⟩ 3)), (0, .timer),
    (0, .call (.do_mutex_lock_init 0)), (0, .call (.do_pthread_create 1)),
    (0, .call (.do_pthread_create 2)), (0, .call (.do_mutex_lock_acquire ⟨0, lock_num_pos⟩))]

/-- The first thread of a process holds a mutex when the second one asks for it and is blocked; when the
first has released it, the second one gets it. -/
theorem exclusive_threads : ∃ s s' : Machine, s.mem.status ⟨1, by decide⟩ = .TASK_BLOCKED ∧
    holder ⟨0, by decide⟩ s.mem.log = some ⟨0, by decide⟩ ∧
    s'.mem.log = s.mem.log ++ [.released ⟨0, by decide⟩ ⟨0, by decide⟩, .acquired ⟨1, by decide⟩ ⟨0, by decide⟩] ∧
    Exclusive s'.mem.log := by
  have hrun : (stepsIf (fun m h a => decide (MutexOk m h a))
      (threads ++ [(0, .timer), (0, .call (.do_mutex_lock_acquire ⟨0, by decide⟩))]) .start).bind (fun s =>
        (stepsIf (fun m h a => decide (MutexOk m h a))
          [(0, .timer), (0, .call (.do_mutex_lock_release ⟨0, by decide⟩)), (0, .timer),
          (0, .timer), (0, .resume fun _ => 0)] s).map fun s' => decide (s.mem.status ⟨1, by decide⟩ = .TASK_BLOCKED ∧
            holder ⟨0, by decide⟩ s.mem.log = some ⟨0, by decide⟩ ∧ s'.mem.log = s.mem.log ++
              [.released ⟨0, by decide⟩ ⟨0, by decide⟩, .acquired ⟨1, by decide⟩ ⟨0, by decide⟩])) = some true := by
    decide +kernel
  obtain ⟨s, hs, hrun⟩ := Option.bind_eq_some_iff.mp hrun
  obtain ⟨s', hs', hrun⟩ := Option.map_eq_some_iff.mp hrun
  obtain ⟨hblocked, hholder, hlog⟩ := of_decide_eq_true hrun
  have hr : Reach MutexOk s := (Reach.boot boot_start).stepsIf (fun _ _ _ => of_decide_eq_true) hs
  exact ⟨s, s', hblocked, hholder, hlog, exclusive_of_reach (hr.stepsIf (fun _ _ _ => of_decide_eq_true) hs')⟩

/-- The second thread exits while the first holds the mutex; then the third acquires it. -/
theorem exclusive_exit_fails : ¬ ∀ s, Reach Releases s → Exclusive s.mem.log := by
  intro hall
  have hrun :
    (steps (threads ++ [(0, .call .do_scheduler), (0, .call .do_exit),
      (0, .call (.do_mutex_lock_acquire ⟨0, by decide⟩))]) .start).map
      (fun s => s.mem.log) = some ([.acquired ⟨0, by decide⟩ ⟨0, by decide⟩, .ended ⟨1, by decide⟩] ++
        .acquired ⟨2, by decide⟩ ⟨0, by decide⟩ :: []) := by decide +kernel
  obtain ⟨s, he, hlog⟩ := Option.map_eq_some_iff.mp hrun
  have hx : Exclusive s.mem.log := by
    refine hall s ((Reach.boot boot_start).steps _ ?_ he)
    intro m x hx
    simp only [threads, List.cons_append, List.nil_append, List.mem_cons, List.not_mem_nil, or_false] at hx
    rcases hx with rfl | rfl | rfl | rfl | rfl | rfl | rfl | rfl | rfl
    all_goals
      rintro i c - ⟨⟩ <;> trivial
  have := hx _ _ _ _ hlog
  cases this

end OsLab.Sched
