import OsLab.Sched.Schedule

/-!
# What the system calls keep

Every kernel entry leads from `Inv` to `Inv`. A call that does not block changes a few variables and
wakes tasks, and its task goes on running; a call that blocks moves its task into a queue for which
it has a reason and ends in `do_scheduler`. `At h i c` is the state in which hart `h` enters the
kernel for task `i`.
-/

namespace OsLab.Sched

open Lib ProgM

variable {α : Type} {c c' : St} {h : Hart} {i j : Slot} {q : Queue} {k : Handle}

/-- Task `i` runs on hart `h`. -/
structure At (h : Hart) (i : Slot) (c : St) : Prop extends Inv c where
  here : c.mem.current_running h = some i

namespace At

theorem running (a : At h i c) : c.mem.status i = .TASK_RUNNING := a.cur h i a.here

theorem free (a : At h i c) : c.dev.Free i := a.disc.free_running a.running

theorem frame (a : At h i c) (f : Frame c c') (hw : c'.Waits) : At h i c' :=
  ⟨f.inv a.toInv hw, by rw [f.current]; exact a.here⟩

end At

theorem Mid.inv (hm : Mid h c) (hh : c.mem.current_running h = some i)
    (hr : c.mem.status i = .TASK_RUNNING) : Inv c := by
  refine ⟨hm.disc, hm.up, hm.waits, hm.pend, fun h' j hj => ?_⟩
  by_cases e : h' = h
  · subst e
    obtain rfl : i = j := Option.some.inj (hh.symm.trans hj)
    exact hr
  · exact hm.others h' e j hj

/-- When a change of variables keeps a reason. -/
theorem Reason.mono {s s' : Kernel} (hr : Reason s q j)
    (hs : ∀ x, s'.status x = .TASK_EXITED → s.status x = .TASK_EXITED)
    (hm : ∀ k, q = .mutex k → (s'.mlocks k).locked = (s.mlocks k).locked)
    (hb : ∀ k, q = .barrier k → (s.barrier k).active = true → (s'.barrier k).active = true)
    (hc : ∀ k, q = .condition k → (s.condition k).active = true → (s'.condition k).active = true)
    (hx : ∀ k, q = .full k ∨ q = .empty k → (s.mailbox k).active = true →
      (s'.mailbox k).active = true ∧ (s'.mailbox k).buffer_idx = (s.mailbox k).buffer_idx)
    (hres : s'.resume j = s.resume j) : Reason s' q j := by
  cases q with
  | ready_queue => trivial
  | sleep_queue => trivial
  | wait x => exact fun e => hr (hs x e)
  | mutex k =>
    rw [Reason, hm k rfl]
    exact hr
  | barrier k => exact hb k rfl hr
  | condition k => exact hc k rfl hr
  | full k =>
    obtain ⟨ha, hi⟩ := hx k (Or.inl rfl) hr.1
    rw [Reason, hres, hi]
    exact ⟨ha, hr.2⟩
  | empty k =>
    obtain ⟨ha, hi⟩ := hx k (Or.inr rfl) hr.1
    rw [Reason, hres, hi]
    exact ⟨ha, hr.2⟩

/-! ### Going on and blocking -/

/-- Where a task in no queue goes on does not matter to the waiting ones. -/
theorem St.Waits.setResume (hw : c.Waits) (hf : c.dev.Free i) (r : Resume) :
    St.Waits ⟨{ c.mem with resume := Function.update c.mem.resume i r }, c.dev⟩ := by
  intro q j hj
  have hji : j ≠ i := by
    rintro rfl
    exact hf q hj
  exact (hw q j hj).mono (fun _ e => e) (fun _ _ => rfl) (fun _ _ e => e) (fun _ _ e => e) (fun _ _ e => ⟨e, rfl⟩)
    (Function.update_of_ne hji ..)

theorem Kernel.Pend.setResume {s : Kernel} (hp : s.Pend) {r : Resume}
    (hr : ∀ k, r.mailbox = some k → (s.mailbox k).active = true) :
    Kernel.Pend { s with resume := Function.update s.resume i r } := by
  intro j k hj hk
  have hk' : (Function.update s.resume i r j).mailbox = some k := hk
  by_cases hji : j = i
  · subst hji
    rw [Function.update_self] at hk'
    exact hr k hk'
  · rw [Function.update_of_ne hji] at hk'
    exact hp j k hj hk'

theorem Mid.setResume (hm : Mid h c) (hf : c.dev.Free i) {r : Resume}
    (hr : ∀ k, r.mailbox = some k → (c.mem.mailbox k).active = true) :
    Mid h ⟨{ c.mem with resume := Function.update c.mem.resume i r }, c.dev⟩ :=
  ⟨hm.disc, hm.up, hm.waits.setResume hf r, hm.pend.setResume hr, hm.others⟩

/-- A call returns to its task. -/
theorem finish_spec (a : At h i c) (v : ℤ) : Returns listed c (finish i v) fun _ c' => Inv c' := by
  have hm := (a.mid h).setResume a.free (r := .user) (by rintro k ⟨⟩)
  have hinv := hm.inv a.here a.running
  refine Returns.of_exec rfl ⟨hinv.disc, hinv.up, ?_, hinv.pend, hinv.cur⟩
  intro q j hj
  exact (hinv.waits q j hj).mono (fun _ e => e) (fun _ _ => rfl)
    (fun _ _ e => e) (fun _ _ e => e) (fun _ _ e => ⟨e, rfl⟩) rfl

/-- `do_block` in a call of hart `h`. -/
theorem Mid.block (hm : Mid h c) (hh : c.mem.current_running h = some i) (hr : c.mem.status i = .TASK_RUNNING)
    (hq : q ≠ .ready_queue) (hwhy : Reason (c.mem.setStatus i .TASK_BLOCKED) q i) :
    Mid h (c.move i (some q) .TASK_BLOCKED) := by
  have hex : c.mem.status i ≠ .TASK_EXITED := by
    rw [hr]
    decide
  refine ⟨?_, isUp_move hm.up fun _ => hex, ?_, hm.pend.setStatus fun _ => hex, ?_⟩
  · refine hm.disc.move ?_ ?_ ?_
    · rintro _ ⟨⟩
      rw [Queue.status, if_neg hq]
    · rintro ⟨⟩
    · rintro ⟨⟩
  · refine hm.waits.move hm.disc ?_ ?_
    · rintro ⟨⟩
    · rintro _ ⟨⟩
      exact hwhy
  · intro h' hne j hj
    have hji : j ≠ i := by
      rintro rfl
      exact hne (hm.disc.excl hj hh)
    rw [status_move_of_ne _ _ _ hji]
    exact hm.others h' hne j hj

/-- A task blocks in a queue for which it has a reason. -/
theorem blockIn_spec (a : At h i c) {r : Resume} (hq : q ≠ .ready_queue) (hup : c.dev.Up q)
    (hr : ∀ k, r.mailbox = some k → (c.mem.mailbox k).active = true)
    (hwhy : Reason (Kernel.setStatus { c.mem with resume := Function.update c.mem.resume i r } i .TASK_BLOCKED) q i) :
    Returns listed c (blockIn h i q r) fun _ c' => Inv c' := by
  rw [blockIn, setResume]
  refine Returns.modify_bind ?_
  have hm := (a.mid h).setResume a.free hr
  refine Returns.seq (exec_do_block (q := q) a.free hup) ?_
  exact do_scheduler_spec (hm.block a.here a.running hq hwhy)

theorem suspend_spec (a : At h i c) {r : Resume} (hr : r.mailbox = none) :
    Returns listed c (suspend h i r) fun _ c' => Inv c' := by
  rw [suspend, setResume]
  refine Returns.modify_bind (do_scheduler_spec ((a.mid h).setResume a.free ?_))
  intro k hk
  rw [hr] at hk
  cases hk

/-! ### Mutexes -/

/-- Unlocking a mutex wakes the tasks that wait for it. -/
theorem unlock_spec (hd : c.Disc) (hw : c.Waits) (k : Handle) :
    Returns listed c (unlock k) fun _ c' => Frame c c' ∧ St.Waits c' := by
  rw [unlock]
  refine Returns.get_bind ?_
  rw [setMlock]
  refine Returns.modify_bind ?_
  generalize hc₁ : (Conf.mk _ _ : St) = c₁
  have hf₁ : Frame c c₁ := by rw [← hc₁]; exact Frame.of_mem hd rfl (fun _ => rfl) rfl rfl rfl rfl rfl
  have hw₁ : St.WaitsBut c₁ (· = .mutex k) := by
    rw [← hc₁]
    intro q j hq hj
    refine (hw q j hj).mono (fun _ e => e) ?_ (fun _ _ e => e) (fun _ _ e => e) (fun _ _ e => ⟨e, rfl⟩) rfl
    rintro k' rfl
    have hk : k' ≠ k := by
      rintro rfl
      exact hq rfl
    simp [hk]
  refine (wakeAll_spec (q := .mutex k) hf₁.disc nofun nofun).mono ?_
  rintro _ c₂ ⟨hf₂, hm₂, hnil⟩
  exact ⟨hf₁.trans hf₂, (hf₂.waitsBut hm₂ hw₁).waits hnil⟩

theorem releaseLoop_spec (pid : Int32) (ks : List Handle) (hd : c.Disc) (hw : c.Waits) :
    Returns listed c (releaseLoop pid ks) fun _ c' => Frame c c' ∧ St.Waits c' := by
  induction ks generalizing c with
  | nil => exact Returns.pure ⟨Frame.refl hd, hw⟩
  | cons k ks ih =>
    rw [releaseLoop]
    refine Returns.get_bind ?_
    refine Returns.bind (q := fun _ c' => Frame c c' ∧ St.Waits c') ?_ ?_
    · rw [ifThen]
      split
      · exact unlock_spec hd hw k
      · exact Returns.pure ⟨Frame.refl hd, hw⟩
    · rintro _ c₁ ⟨hf₁, hw₁⟩
      refine (ih hf₁.disc hw₁).mono ?_
      rintro _ c₂ ⟨hf₂, hw₂⟩
      exact ⟨hf₁.trans hf₂, hw₂⟩

theorem release_process_mutex_spec (pid : Int32) (hd : c.Disc) (hw : c.Waits) :
    Returns listed c (release_process_mutex pid) fun _ c' => Frame c c' ∧ St.Waits c' := releaseLoop_spec pid _ hd hw

/-- The history does not matter. -/
theorem record_frame (hd : c.Disc) (hw : c.Waits) (e : Event) :
    Frame c ⟨{ c.mem with log := c.mem.log ++ [e] }, c.dev⟩ ∧
    St.Waits ⟨{ c.mem with log := c.mem.log ++ [e] }, c.dev⟩ := by
  have hf := Frame.of_mem hd (s := { c.mem with log := c.mem.log ++ [e] }) rfl (fun _ => rfl) rfl rfl rfl rfl rfl
  exact ⟨hf, hf.waits rfl hw⟩

theorem do_mutex_lock_release_spec (hd : c.Disc) (hw : c.Waits) (i : Slot) (k : Handle) :
    Returns listed c (do_mutex_lock_release i k) fun _ c' => Frame c c' ∧ St.Waits c' := by
  rw [do_mutex_lock_release, record]
  refine Returns.modify_bind ?_
  obtain ⟨hf₁, hw₁⟩ := record_frame hd hw (.released i k)
  refine (unlock_spec hf₁.disc hw₁ k).mono ?_
  rintro _ c₂ ⟨hf₂, hw₂⟩
  exact ⟨hf₁.trans hf₂, hw₂⟩

theorem do_mutex_lock_init_spec (a : At h i c) (key : ℤ) :
    Returns listed c (do_mutex_lock_init i key) fun _ c' => Inv c' := by
  rw [do_mutex_lock_init]
  refine Returns.get_bind ?_
  split
  · exact finish_spec a _
  · split
    · next hlt =>
      refine Returns.modify_bind (Returns.modify_bind ?_)
      generalize hc₁ : (Conf.mk _ _ : St) = c₁
      have hf₁ : Frame c c₁ := by rw [← hc₁]; exact Frame.of_mem a.disc rfl (fun _ => rfl) rfl rfl rfl rfl rfl
      have hw₁ : St.Waits c₁ := by
        rw [← hc₁]
        intro q j hj
        refine (a.waits q j hj).mono (fun _ e => e) ?_ (fun _ _ e => e) (fun _ _ e => e) (fun _ _ e => ⟨e, rfl⟩) rfl
        intro k' _
        simp only [Function.update_apply]
        split
        · next e => rw [e]
        · rfl
      exact finish_spec (a.frame hf₁ hw₁) _
    · exact finish_spec a _

theorem do_mutex_lock_acquire_spec (a : At h i c) (k : Handle) :
    Returns listed c (do_mutex_lock_acquire h i k) fun _ c' => Inv c' := by
  rw [do_mutex_lock_acquire]
  refine Returns.get_bind ?_
  split
  · next hl => exact blockIn_spec a (by rintro ⟨⟩) nofun (by rintro k' ⟨⟩) hl
  · next hl =>
    refine Returns.modify_bind (Returns.modify_bind ?_)
    generalize hc₁ : (Conf.mk _ _ : St) = c₁
    have hf₁ : Frame c c₁ := by rw [← hc₁]; exact Frame.of_mem a.disc rfl (fun _ => rfl) rfl rfl rfl rfl rfl
    have hw₁ : St.Waits c₁ := by
      rw [← hc₁]
      intro q j hj
      refine (a.waits q j hj).mono (fun _ e => e) ?_ (fun _ _ e => e) (fun _ _ e => e) (fun _ _ e => ⟨e, rfl⟩) rfl
      rintro k' rfl
      have hlocked : (c.mem.mlocks k').locked = true := a.waits _ j hj
      have hk : k' ≠ k := by
        rintro rfl
        exact hl hlocked
      simp [hk]
    exact finish_spec (a.frame hf₁ hw₁) _

/-! ### Exit and kill -/

theorem exec_releasePages (i : Slot) : exec listed (releasePages i) c = some ((), c) := by
  rw [releasePages, exec_bind, exec_get, Option.bind_some, ifThen]
  split <;> rfl

theorem move_none_of_free (hf : c.dev.Free i) : c.dev.move i none = c.dev := by
  rw [move_none]
  have : (fun q => (c.dev q).erase i) = c.dev.tasks := funext fun q => List.erase_of_not_mem (hf q)
  rw [this]

/-- A task ends: it is not the running task of the other hart, and nobody waits for it. -/
theorem Mid.ends (hm : Mid h c) (hw : c.dev (.wait j) = [])
    (hother : ∀ h', h' ≠ h → c.mem.current_running h' ≠ some j) :
    Mid h (c.move j none .TASK_EXITED) := by
  refine ⟨?_, isUp_move hm.up fun e => absurd rfl e, ?_, ?_, ?_⟩
  · refine hm.disc.move ?_ ?_ ?_
    · rintro q ⟨⟩
    · exact fun _ => by decide
    · rintro ⟨⟩
  · refine hm.waits.move hm.disc (fun _ => hw) ?_
    rintro q ⟨⟩
  · exact hm.pend.setStatus fun e => absurd rfl e
  · intro h' hne x hx
    have hxj : x ≠ j := by
      rintro rfl
      exact hother h' hne hx
    rw [status_move_of_ne _ _ _ hxj]
    exact hm.others h' hne x hx

/-- Waking the tasks that wait for `j`. -/
theorem wakeWaiting_spec (hm : Mid h c) (hj : c.mem.status j ≠ .TASK_EXITED) :
    Returns listed c (wakeAll (.wait j)) fun _ c' => Frame c c' ∧ Mid h c' ∧ c'.dev (.wait j) = [] := by
  refine (wakeAll_spec (q := .wait j) hm.disc nofun ?_).mono ?_
  · rintro _ ⟨⟩
    exact hm.up j hj
  rintro _ c' ⟨hf, hml, hnil⟩
  exact ⟨hf, hf.mid hm (hf.waits hml hm.waits), hnil⟩

/-- Unlocking the mutexes of a process keeps an empty queue empty. -/
theorem unlockAll_spec (hm : Mid h c) (hnil : c.dev (.wait j) = []) (pid : Int32) :
    Returns listed c (release_process_mutex pid) fun _ c' => Frame c c' ∧ Mid h c' ∧ c'.dev (.wait j) = [] := by
  refine (release_process_mutex_spec pid hm.disc hm.waits).mono ?_
  rintro _ c' ⟨hf, hw⟩
  refine ⟨hf, hf.mid hm hw, List.eq_nil_iff_forall_not_mem.mpr fun x hx => ?_⟩
  have := hf.sub (.wait j) x nofun hx
  rw [hnil] at this
  cases this

/-- `do_exit` comes to its `do_scheduler` with the task ended, and every task ended that had been before. -/
theorem exec_do_exit (a : At h i c) :
    ∃ c', Mid h c' ∧ (∀ x, x = i ∨ c.mem.status x = .TASK_EXITED → c'.mem.status x = .TASK_EXITED) ∧
    exec listed (do_exit h i) c = exec listed (do_scheduler h) c' := by
  obtain ⟨⟨⟩, c₁, he₁, hf₁, hm₁, hnil₁⟩ := wakeWaiting_spec (a.mid h) (by rw [a.running]; decide)
  obtain ⟨⟨⟩, c₂, he₂, hf₂, hm₂, hnil₂⟩ := unlockAll_spec hm₁ hnil₁ (c₁.mem.pcb i).pid
  have hf := hf₁.trans hf₂
  have hr : c₂.mem.status i = .TASK_RUNNING := hf.running_iff.mpr a.running
  have hend := hm₂.ends hnil₂ fun h' hne e => hne (hm₂.disc.excl e (by rw [hf.current]; exact a.here))
  rw [St.move, move_none_of_free (hm₂.disc.free_running hr)] at hend
  obtain ⟨hf', hw'⟩ := record_frame hend.disc hend.waits (.ended i)
  refine ⟨_, hf'.mid hend hw', ?_, ?_⟩
  · rintro x (rfl | hx)
    · exact status_move_self c₂ none .TASK_EXITED
    · have hxi : x ≠ i := by
        rintro rfl
        rw [a.running] at hx
        cases hx
      exact (status_move_of_ne c₂ none .TASK_EXITED hxi).trans (hf.exited_iff.mpr hx)
  · rw [do_exit, exec_bind, he₁, Option.bind_some, exec_bind,
      exec_get, Option.bind_some, exec_bind, he₂, Option.bind_some,
      exec_bind, exec_releasePages, Option.bind_some, exec_bind, exec_setStatus, Option.bind_some]
    rfl

theorem do_exit_spec (a : At h i c) : Returns listed c (do_exit h i) fun _ c' => Inv c' := by
  obtain ⟨c', hm, -, he⟩ := exec_do_exit a
  obtain ⟨r, d, hd, hinv⟩ := do_scheduler_spec hm
  exact ⟨r, d, he.trans hd, hinv⟩

/-- What `do_kill` has done so far: only tasks of the process have ended. -/
structure Killed (pid : Int32) (c c' : St) : Prop where
  current : c'.mem.current_running = c.mem.current_running
  pid : ∀ x, (c'.mem.pcb x).pid = (c.mem.pcb x).pid
  running : ∀ x, c.mem.status x = .TASK_RUNNING → c'.mem.status x = .TASK_RUNNING
  exited : ∀ x, c.mem.status x = .TASK_EXITED → c'.mem.status x = .TASK_EXITED

theorem Frame.killed (f : Frame c c') (pid : Int32) : Killed pid c c' :=
  ⟨f.current, f.pid, fun _ e => f.running_iff.mpr e, fun _ e => f.exited_iff.mpr e⟩

theorem exec_remove_pcb_queue : exec listed (remove_pcb_queue j) c = some ((), ⟨c.mem, c.dev.move j none⟩) := by
  classical
  have hl : exec listed (isLinked j) c = some (decide (¬ c.dev.Free j), c) := by
    rw [isLinked, exec_perform]
    simp [listed]
  rw [remove_pcb_queue, exec_bind, hl, Option.bind_some]
  by_cases hf : c.dev.Free j
  · simp only [hf, not_true_eq_false, decide_false, Bool.false_eq_true, if_false, exec_pure, move_none_of_free hf]
  · simp only [hf, not_false_eq_true, decide_true, if_true]
    exact exec_unlink hf

/-- One round of `do_kill`. -/
theorem killPcb_spec (hm : Mid h c) (pid : Int32) (hother : ∀ h', h' ≠ h → c.mem.current_running h' ≠ some j)
    (hj : c.mem.status j ≠ .TASK_RUNNING) (hex : c.mem.status j ≠ .TASK_EXITED) :
    Returns listed c (killPcb j pid) fun _ c' => Mid h c' ∧ Killed pid c c' ∧ c'.mem.status j = .TASK_EXITED := by
  rw [killPcb]
  refine (wakeWaiting_spec hm hex).bind ?_
  rintro _ c₀ ⟨hf₀, hm₀, hnil₀⟩
  refine (unlockAll_spec hm₀ hnil₀ pid).bind ?_
  rintro _ c₁ ⟨hf₂, hm₁, hnil⟩
  have hf := hf₀.trans hf₂
  refine Returns.seq (exec_releasePages j) (Returns.seq (exec_setStatus _ _) ?_)
  refine Returns.modify_bind (Returns.of_exec exec_remove_pcb_queue ?_)
  have hend := hm₁.ends hnil fun h' hne => by rw [hf.current]; exact hother h' hne
  obtain ⟨hf', hw'⟩ := record_frame hend.disc hend.waits (.ended j)
  refine ⟨hf'.mid hend hw', ⟨hf.current, fun x => ?_, fun x hx => ?_, fun x hx => ?_⟩, ?_⟩
  · rw [← hf.pid x]
    by_cases hxj : x = j
    · subst hxj
      simp [Kernel.setStatus]
    · simp [Kernel.setStatus, hxj]
  · have hxj : x ≠ j := by
      rintro rfl
      exact hj hx
    refine Eq.trans ?_ (hf.running_iff.mpr hx)
    exact status_move_of_ne c₁ none .TASK_EXITED hxj
  · by_cases hxj : x = j
    · subst hxj
      exact status_move_self c₁ none .TASK_EXITED
    · exact (status_move_of_ne c₁ none .TASK_EXITED hxj).trans (hf.exited_iff.mpr hx)
  · exact status_move_self c₁ none .TASK_EXITED

/-- The tasks of a process that have not ended. -/
def live (s : Kernel) (pid : Int32) : Finset Slot :=
  Finset.univ.filter fun x => (s.pcb x).pid = pid ∧ s.status x ≠ .TASK_EXITED

theorem Killed.live_lt {pid : Int32} (hk : Killed pid c c')
    (hj : c'.mem.status j = .TASK_EXITED) (hl : j ∈ live c.mem pid) :
    (live c'.mem pid).card < (live c.mem pid).card := by
  refine Finset.card_lt_card (Finset.ssubset_iff_of_subset ?_ |>.mpr ⟨j, hl, ?_⟩)
  · intro x hx
    simp only [live, Finset.mem_filter, Finset.mem_univ, true_and] at hx ⊢
    exact ⟨(hk.pid x).symm.trans hx.1, fun e => hx.2 (hk.exited x e)⟩
  · intro hx
    simp only [live, Finset.mem_filter, Finset.mem_univ, true_and] at hx
    exact hx.2 hj

theorem pid_to_pcb_id_some {s : Kernel} {pid : Int32} (hp : pid_to_pcb_id s.pcb pid = some j) :
    (s.pcb j).pid = pid ∧ s.status j ≠ .TASK_EXITED := by
  have := List.find?_some hp
  simpa [Kernel.status] using this

/-- A round of `do_kill` that does not hit the calling task: the next round begins as this one did. -/
theorem killRound_spec {pid : Int32} (a : At h i c) (hp : pid_to_pcb_id c.mem.pcb pid = some j) (hji : j ≠ i)
    (hother : ∀ h', h' ≠ h → ∀ x, c.mem.current_running h' = some x → (c.mem.pcb x).pid ≠ pid) :
    Returns listed c (killPcb j pid) fun _ c' => At h i c' ∧ Killed pid c c' ∧ c'.mem.status j = .TASK_EXITED ∧
      ∀ h', h' ≠ h → ∀ x, c'.mem.current_running h' = some x → (c'.mem.pcb x).pid ≠ pid := by
  obtain ⟨hpid, hst⟩ := pid_to_pcb_id_some hp
  have hnot : ∀ h', h' ≠ h → c.mem.current_running h' ≠ some j := fun h' hne e => hother h' hne j e hpid
  have hrun : c.mem.status j ≠ .TASK_RUNNING := by
    intro e
    obtain ⟨h', hh⟩ := a.disc.run e
    by_cases hh' : h' = h
    · subst hh'
      exact hji (Option.some.inj (hh.symm.trans a.here))
    · exact hnot h' hh' hh
  refine (killPcb_spec (a.mid h) pid hnot hrun hst).mono ?_
  rintro _ c' ⟨hm, hk, hex⟩
  have hhere : c'.mem.current_running h = some i := by
    rw [hk.current]
    exact a.here
  refine ⟨⟨hm.inv hhere (hk.running i a.running), hhere⟩, hk, hex, fun h' hne x hx => ?_⟩
  rw [hk.current] at hx
  rw [hk.pid]
  exact hother h' hne x hx

theorem killLoop_spec (fuel : ℕ) (a : At h i c) (pid : Int32) (hf : (live c.mem pid).card < fuel)
    (hother : ∀ h', h' ≠ h → ∀ x, c.mem.current_running h' = some x → (c.mem.pcb x).pid ≠ pid) :
    Returns listed c (killLoop h i pid fuel) fun _ c' => Inv c' := by
  induction fuel generalizing c with
  | zero => exact absurd hf (Nat.not_lt_zero _)
  | succ fuel ih =>
    rw [killLoop]
    refine Returns.get_bind ?_
    cases hp : pid_to_pcb_id c.mem.pcb pid with
    | none => exact finish_spec a _
    | some j =>
      simp only []
      split
      · exact do_exit_spec a
      · next hji =>
        refine (killRound_spec a hp hji hother).bind ?_
        rintro _ c₁ ⟨a₁, hk, hex, hother₁⟩
        refine ih a₁ ?_ hother₁
        have hl : j ∈ live c.mem pid := by
          simp only [live, Finset.mem_filter, Finset.mem_univ, true_and]
          exact pid_to_pcb_id_some hp
        have := hk.live_lt hex hl
        omega

/-- `do_kill` of a process that the other hart does not run. -/
theorem do_kill_spec (a : At h i c) (pid : Int32)
    (hother : ∀ h', h' ≠ h → ∀ x, c.mem.current_running h' = some x → (c.mem.pcb x).pid ≠ pid) :
    Returns listed c (do_kill h i pid) fun _ c' => Inv c' := by
  refine killLoop_spec _ a pid ?_ hother
  have := (live c.mem pid).card_le_univ
  rw [Fintype.card_fin] at this
  omega

/-! ### New tasks -/

/-- A queue is initialised. -/
def St.init (c : St) (q : Queue) : St := ⟨c.mem, { c.dev with up := fun i => q = .wait i ∨ c.dev.up i }⟩

theorem exec_initQueue (hq : c.dev q = []) : exec listed (initQueue q) c = some ((), c.init q) := by
  rw [initQueue, exec_perform, St.init]
  simp [listed, hq]

theorem Inv.init (hc : Inv c) (q : Queue) : Inv (c.init q) :=
  ⟨⟨hc.disc.nodup, hc.disc.disjoint, hc.disc.status, hc.disc.queued, hc.disc.run, hc.disc.excl⟩,
    fun i hi => Or.inr (hc.up i hi), hc.waits, hc.pend, hc.cur⟩

/-- Nobody waits for a free slot. -/
theorem St.Waits.nobody (hw : c.Waits) (hj : c.mem.status j = .TASK_EXITED) : c.dev (.wait j) = [] :=
  List.eq_nil_iff_forall_not_mem.mpr fun x hx => hw (.wait j) x hx hj

/-- A change of variables that no invariant reads. -/
theorem Inv.congr (hc : Inv c) {s : Kernel} (hs : s.status = c.mem.status)
    (h1 : s.current_running = c.mem.current_running)
    (h2 : s.resume = c.mem.resume) (hm : s.mlocks = c.mem.mlocks) (h3 : s.barrier = c.mem.barrier)
    (h4 : s.condition = c.mem.condition) (h5 : s.mailbox = c.mem.mailbox) : Inv ⟨s, c.dev⟩ := by
  refine ⟨?_, ?_, ?_, ?_, ?_⟩
  · rw [St.Disc, hs, h1]
    exact hc.disc
  · intro i hi
    rw [hs] at hi
    exact hc.up i hi
  · intro q j hj
    refine (hc.waits q j hj).mono (fun x e => by rwa [hs] at e) ?_ ?_ ?_ ?_ (by rw [h2])
    · exact fun k _ => by rw [hm]
    · exact fun k _ e => by rwa [h3]
    · exact fun k _ e => by rwa [h4]
    · exact fun k _ e => by rw [h5]; exact ⟨e, rfl⟩
  · intro i k hi hk
    rw [hs] at hi
    rw [h2] at hk
    rw [h5]
    exact hc.pend i k hi hk
  · intro h i hi
    rw [h1] at hi
    rw [hs]
    exact hc.cur h i hi

/-- The same, when fields of one task change but not its status. -/
theorem Inv.setPcb (hc : Inv c) {s : Kernel} {p : Pcb} (hp : s.pcb = Function.update c.mem.pcb j p)
    (hst : p.status = (c.mem.pcb j).status) (h1 : s.current_running = c.mem.current_running)
    (h2 : s.resume = c.mem.resume) (hm : s.mlocks = c.mem.mlocks) (h3 : s.barrier = c.mem.barrier)
    (h4 : s.condition = c.mem.condition) (h5 : s.mailbox = c.mem.mailbox) : Inv ⟨s, c.dev⟩ := by
  refine hc.congr ?_ h1 h2 hm h3 h4 h5
  funext x
  rw [Kernel.status, Kernel.status, hp]
  by_cases hx : x = j
  · subst hx
    rw [Function.update_self, hst]
  · rw [Function.update_of_ne hx]

/-- A free slot becomes a ready task that will start in user mode. -/
theorem Inv.start (hc : Inv c) (hj : c.mem.status j = .TASK_EXITED) (hup : c.dev.up j) :
    Inv (St.move ⟨{ c.mem with resume := Function.update c.mem.resume j .user },
      c.dev⟩ j (some .ready_queue) .TASK_READY) := by
  have hf := hc.disc.free_exited hj
  have hw := hc.waits.setResume hf .user
  have hp : Kernel.Pend { c.mem with resume := Function.update c.mem.resume j .user } :=
    hc.pend.setResume (by rintro k ⟨⟩)
  have hd : St.Disc ⟨{ c.mem with resume := Function.update c.mem.resume j .user }, c.dev⟩ := hc.disc
  refine ⟨hd.move ?_ ?_ ?_, ?_, hw.move hd ?_ ?_, ?_, ?_⟩
  · rintro _ ⟨⟩
    rfl
  · rintro ⟨⟩
  · rintro ⟨⟩
  · intro x hx
    by_cases hxj : x = j
    · subst hxj
      exact hup
    · rw [status_move_of_ne _ _ _ hxj] at hx
      exact hc.up x hx
  · rintro ⟨⟩
  · rintro _ ⟨⟩
    trivial
  · intro x k hx hk
    by_cases hxj : x = j
    · subst hxj
      have hk' : (Function.update c.mem.resume x .user x).mailbox = some k := hk
      rw [Function.update_self] at hk'
      cases hk'
    · rw [status_move_of_ne _ _ _ hxj] at hx
      exact hp x k hx hk
  · intro h x hx
    have hxj : x ≠ j := by
      rintro rfl
      have := hc.cur h x hx
      rw [hj] at this
      cases this
    rw [status_move_of_ne _ _ _ hxj]
    exact hc.cur h x hx

theorem get_free_pcb_some {s : Kernel} (hp : get_free_pcb s.pcb = some j) : s.status j = .TASK_EXITED := by
  have := List.find?_some hp
  simpa [Kernel.status] using this

/-- The end of `do_exec` and `do_pthread_create`: slot `j` has got its fields. -/
theorem start_spec (hc : Inv c) (hj : c.mem.status j = .TASK_EXITED)
    (hup : c.dev.up j) {x : SchedM α} {post : α → St → Prop}
    (hf : ∀ c', Inv c' → c'.mem.current_running = c.mem.current_running → (c'.mem.pcb j).pid = (c.mem.pcb j).pid →
      c'.mem.status j ≠ .TASK_EXITED → Returns listed c' x post) :
    Returns listed c (do
      setResume j .user
      add_readyqueue j
      x) post := by
  refine Returns.modify_bind (Returns.seq (exec_add_readyqueue (hc.disc.free_exited hj)) ?_)
  refine hf _ (hc.start hj hup) rfl ?_ ?_
  · simp [St.move, Kernel.setStatus]
  · rw [status_move_self]
    decide

/-- `do_exec`: the new task can be found by its pid. -/
theorem do_exec_spec (hc : Inv c) (h : Hart) (name : Name) : Returns listed c (do_exec h name) fun r c' =>
    Inv c' ∧ c'.mem.current_running = c.mem.current_running ∧
        (r = -1 ∨ ∃ j, (c'.mem.pcb j).pid = r ∧ c'.mem.status j ≠ .TASK_EXITED) := by
  rw [do_exec]
  refine Returns.get_bind ?_
  split
  · exact Returns.pure ⟨hc, rfl, Or.inl rfl⟩
  · split
    · exact Returns.pure ⟨hc, rfl, Or.inl rfl⟩
    · next task _ j hfree =>
      have hj := get_free_pcb_some hfree
      refine Returns.modify_bind (Returns.modify_bind ?_)
      generalize hc₁ : (Conf.mk _ _ : St) = c₁
      have hinv : Inv c₁ := by
        rw [← hc₁]
        exact hc.setPcb rfl rfl rfl rfl rfl rfl rfl rfl
      have hpid : (c₁.mem.pcb j).pid = c.mem.process_id + 1 := by rw [← hc₁]; simp
      have hcur : c₁.mem.current_running = c.mem.current_running := by rw [← hc₁]
      have hj₁ : c₁.mem.status j = .TASK_EXITED := by
        rw [← hc₁]
        simpa [Kernel.status] using hj
      refine Returns.seq (exec_initQueue (hinv.waits.nobody hj₁)) (Returns.seq (d := St.init c₁ (.wait j)) rfl ?_)
      refine start_spec (hinv.init (.wait j)) hj₁ (Or.inl rfl) fun c' hc' hcur' hpid' hex => ?_
      exact Returns.pure ⟨hc', hcur'.trans hcur, Or.inr ⟨j, hpid'.trans hpid, hex⟩⟩

theorem do_pthread_create_spec (a : At h i c) (thread : Int32) :
    Returns listed c (do_pthread_create i thread) fun _ c' => Inv c' := by
  rw [do_pthread_create]
  refine Returns.get_bind ?_
  split
  · exact finish_spec a _
  · next j hfree =>
    have hj := get_free_pcb_some hfree
    refine Returns.modify_bind ?_
    generalize hc₁ : (Conf.mk _ _ : St) = c₁
    have hinv : Inv c₁ := by
      rw [← hc₁]
      exact a.setPcb rfl rfl rfl rfl rfl rfl rfl rfl
    have hcur : c₁.mem.current_running = c.mem.current_running := by rw [← hc₁]
    have hj₁ : c₁.mem.status j = .TASK_EXITED := by
      rw [← hc₁]
      simpa [Kernel.status] using hj
    refine Returns.seq (exec_initQueue (hinv.waits.nobody hj₁)) (Returns.seq (d := St.init c₁ (.wait j)) rfl ?_)
    refine start_spec (hinv.init (.wait j)) hj₁ (Or.inl rfl) fun c' hc' hcur' _ _ => ?_
    have hhere : c'.mem.current_running h = some i := by
      rw [hcur'.trans hcur]
      exact a.here
    exact finish_spec ⟨hc', hhere⟩ _

theorem Inv.setMask (hc : Inv c) (j : Slot) (mask : UInt64) :
    Inv ⟨{ c.mem with pcb := Function.update c.mem.pcb j { c.mem.pcb j with cpu_mask := mask } }, c.dev⟩ := by
  exact hc.setPcb rfl rfl rfl rfl rfl rfl rfl rfl

theorem do_taskset_pid_spec (hc : Inv c) (pid : Int32) (mask : UInt64) :
    Returns listed c (do_taskset_pid pid mask) fun _ c' =>
    Inv c' ∧ c'.mem.current_running = c.mem.current_running := by
  rw [do_taskset_pid]
  refine Returns.get_bind ?_
  split
  · exact Returns.pure ⟨hc, rfl⟩
  · next j _ => exact Returns.modify_bind (Returns.pure ⟨hc.setMask j mask, rfl⟩)

theorem do_taskset_exec_spec (hc : Inv c) (h : Hart) (name : Name) (mask : UInt64) :
    Returns listed c (do_taskset_exec h name mask) fun _ c' =>
    Inv c' ∧ c'.mem.current_running = c.mem.current_running := by
  rw [do_taskset_exec]
  refine (do_exec_spec hc h name).bind ?_
  rintro pid c₁ ⟨hc₁, hcur, hp⟩
  split
  · exact Returns.pure ⟨hc₁, hcur⟩
  · next hne =>
    obtain ⟨j, hj, hex⟩ := hp.resolve_left hne
    refine Returns.get_bind ?_
    split
    · next hnone =>
      have := List.find?_eq_none.mp hnone j (List.mem_finRange j)
      simp only [decide_eq_true_eq, not_and, not_not] at this
      exact absurd (this hj) hex
    · next x _ => exact Returns.modify_bind (Returns.pure ⟨hc₁.setMask x mask, hcur⟩)

/-! ### Waiting for a task to end -/

/-- A task may wait for a task that has not ended, itself included. -/
theorem blockIn_wait_spec (a : At h i c) (hj : c.mem.status j ≠ .TASK_EXITED) {r : Resume} (hr : r.mailbox = none) :
    Returns listed c (blockIn h i (.wait j) r) fun _ c' => Inv c' := by
  refine blockIn_spec a nofun ?_ ?_ ?_
  · rintro _ ⟨⟩
    exact a.up j hj
  · intro k hk
    rw [hr] at hk
    cases hk
  · rw [Reason, Kernel.status_setStatus]
    by_cases hji : j = i
    · subst hji
      rw [Function.update_self]
      decide
    · rw [Function.update_of_ne hji]
      exact hj

theorem do_waitpid_spec (a : At h i c) (pid : Int32) : Returns listed c (do_waitpid h i pid) fun _ c' => Inv c' := by
  rw [do_waitpid]
  refine Returns.get_bind ?_
  split
  · exact finish_spec a _
  · next j hp =>
    exact blockIn_wait_spec a (pid_to_pcb_id_some hp).2 rfl

theorem do_pthread_join_spec (a : At h i c) (thread : Int32) :
    Returns listed c (do_pthread_join h i thread) fun _ c' => Inv c' := by
  rw [do_pthread_join]
  refine Returns.get_bind ?_
  split
  · exact finish_spec a _
  · next j hp =>
    have := List.find?_some hp
    simp only [decide_eq_true_eq] at this
    exact blockIn_wait_spec a this.2.2 rfl

theorem do_sleep_spec (a : At h i c) (t : UInt32) : Returns listed c (do_sleep h i t) fun _ c' => Inv c' := by
  rw [do_sleep]
  refine Returns.seq (a := c.mem.clock 0) rfl (Returns.modify_bind ?_)
  generalize hc₁ : (Conf.mk _ _ : St) = c₁
  have hinv : Inv c₁ := by
    rw [← hc₁]
    exact a.setPcb rfl rfl rfl rfl rfl rfl rfl rfl
  exact blockIn_spec ⟨hinv, by rw [← hc₁]; exact a.here⟩ nofun nofun (by rintro k ⟨⟩) trivial

end OsLab.Sched
