import OsLab.Sched.Calls

/-!
# Barriers, conditions and mailboxes

The calls whose queues come and go. An inactive barrier, condition or mailbox has no waiting tasks,
so that `do_barrier_init`, `do_condition_init` and `do_mbox_open` initialise empty queues. A send
that completes can only take away the reasons of waiting receivers, a receive those of waiting
senders, and each wakes all of them.
-/

namespace OsLab.Sched

open Lib ProgM

variable {c c' : St} {h : Hart} {i j : Slot} {q : Queue} {k : Handle}

/-- The queues of a task that runs do not change when it only changes a barrier. -/
theorem At.setBarrier (a : At h i c) {b : Barrier} (hb : b.active = true ∨ c.dev (.barrier k) = []) :
    At h i ⟨{ c.mem with barrier := Function.update c.mem.barrier k b }, c.dev⟩ := by
  refine ⟨⟨a.disc, a.up, ?_, a.pend, a.cur⟩, a.here⟩
  intro q j hj
  refine (a.waits q j hj).mono (fun _ e => e) (fun _ _ => rfl) ?_ (fun _ _ e => e) (fun _ _ e => ⟨e, rfl⟩) rfl
  rintro k' rfl e
  by_cases hk : k' = k
  · subst hk
    rcases hb with hb | hb
    · simpa using hb
    · rw [hb] at hj
      cases hj
  · simpa [hk] using e

theorem At.setCondition (a : At h i c) {b : Condition} (hb : b.active = true ∨ c.dev (.condition k) = []) :
    At h i ⟨{ c.mem with condition := Function.update c.mem.condition k b }, c.dev⟩ := by
  refine ⟨⟨a.disc, a.up, ?_, a.pend, a.cur⟩, a.here⟩
  intro q j hj
  refine (a.waits q j hj).mono (fun _ e => e) (fun _ _ => rfl) (fun _ _ e => e) ?_ (fun _ _ e => ⟨e, rfl⟩) rfl
  rintro k' rfl e
  by_cases hk : k' = k
  · subst hk
    rcases hb with hb | hb
    · simpa using hb
    · rw [hb] at hj
      cases hj
  · simpa [hk] using e

/-- A task wakes a whole queue. -/
theorem At.wakeAll (a : At h i c) (hq : q ≠ .ready_queue) (hup : c.dev.Up q) :
    Returns listed c (wakeAll q) fun _ c' => At h i c' ∧ Frame c c' ∧
    c'.mem.mlocks = c.mem.mlocks ∧ c'.dev q = [] := by
  refine (wakeAll_spec a.disc hq hup).mono ?_
  rintro _ c' ⟨hf, hm, hnil⟩
  exact ⟨a.frame hf (hf.waits hm a.waits), hf, hm, hnil⟩

/-! ### Barriers -/

theorem do_barrier_init_spec (a : At h i c) (key goal : ℤ) :
    Returns listed c (do_barrier_init i key goal) fun _ c' => Inv c' := by
  rw [do_barrier_init]
  refine Returns.get_bind ?_
  split
  · exact finish_spec a _
  · next k hk =>
    have hinact : (c.mem.barrier k).active = false := by
      have := List.find?_some hk
      simpa using this
    have hnil : c.dev (.barrier k) = [] := List.eq_nil_iff_forall_not_mem.mpr fun x hx => by
      have : (c.mem.barrier k).active = true := a.waits _ x hx
      rw [hinact] at this
      cases this
    refine Returns.modify_bind (Returns.seq (exec_initQueue hnil) ?_)
    have a₁ := a.setBarrier (k := k) (b := { key := key, goal := goal, counter := 0, active := true }) (Or.inl rfl)
    exact finish_spec (h := h) ⟨a₁.init _, a₁.here⟩ _

theorem do_barrier_wait_spec (a : At h i c) (hk : (c.mem.barrier k).active = true) :
    Returns listed c (do_barrier_wait h i k) fun _ c' => Inv c' := by
  rw [do_barrier_wait]
  refine Returns.get_bind (Returns.modify_bind ?_)
  have a₁ := a.setBarrier (k := k) (b := { c.mem.barrier k with counter := (c.mem.barrier k).counter + 1 }) (Or.inl hk)
  split
  · refine (a₁.wakeAll (q := .barrier k) nofun nofun).bind ?_
    rintro _ c₂ ⟨a₂, -, -, hnil⟩
    exact Returns.modify_bind (finish_spec (a₂.setBarrier (Or.inr hnil)) _)
  · refine blockIn_spec a₁ nofun nofun (by rintro k ⟨⟩) ?_
    simpa [Reason, Kernel.setStatus] using hk

theorem do_barrier_destroy_spec (a : At h i c) : Returns listed c (do_barrier_destroy i k) fun _ c' => Inv c' := by
  rw [do_barrier_destroy]
  refine (a.wakeAll (q := .barrier k) nofun nofun).bind ?_
  rintro _ c₁ ⟨a₁, -, -, hnil⟩
  exact Returns.get_bind (Returns.modify_bind (finish_spec (a₁.setBarrier (Or.inr hnil)) _))

/-! ### Conditions -/

theorem do_condition_init_spec (a : At h i c) (key : ℤ) :
    Returns listed c (do_condition_init i key) fun _ c' => Inv c' := by
  rw [do_condition_init]
  refine Returns.get_bind ?_
  split
  · exact finish_spec a _
  · next k hk =>
    have hinact : (c.mem.condition k).active = false := by
      have := List.find?_some hk
      simpa using this
    have hnil : c.dev (.condition k) = [] := List.eq_nil_iff_forall_not_mem.mpr fun x hx => by
      have : (c.mem.condition k).active = true := a.waits _ x hx
      rw [hinact] at this
      cases this
    refine Returns.modify_bind (Returns.seq (exec_initQueue hnil) ?_)
    have a₁ := a.setCondition (k := k) (b := { key := key, active := true }) (Or.inl rfl)
    exact finish_spec (h := h) ⟨a₁.init _, a₁.here⟩ _

theorem do_condition_wait_spec (a : At h i c) (hk : (c.mem.condition k).active = true) (m : Handle) :
    Returns listed c (do_condition_wait h i k m) fun _ c' => Inv c' := by
  rw [do_condition_wait]
  have hm := (a.mid h).setResume a.free (r := .acquire m) (by rintro k ⟨⟩)
  refine Returns.modify_bind (Returns.seq (exec_do_block (q := .condition k) a.free nofun) ?_)
  have hm₁ := hm.block (q := .condition k) a.here a.running nofun hk
  refine (do_mutex_lock_release_spec hm₁.disc hm₁.waits i m).bind ?_
  rintro _ c₂ ⟨hf, hw⟩
  exact do_scheduler_spec (hf.mid hm₁ hw)

theorem do_condition_signal_spec (a : At h i c) : Returns listed c (do_condition_signal i k) fun _ c' => Inv c' := by
  rw [do_condition_signal]
  refine Returns.seq (exec_first (q := .condition k) (by rintro i ⟨⟩)) ?_
  cases hl : c.dev (.condition k) with
  | nil =>
    simp only [first, if_true]
    exact finish_spec a _
  | cons j l =>
    have hj : j ∈ c.dev (.condition k) := by rw [hl]; exact List.mem_cons_self ..
    have hf := Frame.wake (q := .condition k) a.disc (by simp) hj
    exact Returns.seq (exec_do_unblock a.disc.nodup (not_free hj)) (finish_spec (a.frame hf (hf.waits rfl a.waits)) _)

theorem do_condition_broadcast_spec (a : At h i c) :
    Returns listed c (do_condition_broadcast i k) fun _ c' => Inv c' := by
  rw [do_condition_broadcast]
  refine (a.wakeAll (q := .condition k) nofun nofun).bind ?_
  rintro _ c₁ ⟨a₁, -⟩
  exact finish_spec a₁ _

theorem do_condition_destroy_spec (a : At h i c) : Returns listed c (do_condition_destroy i k) fun _ c' => Inv c' := by
  rw [do_condition_destroy]
  refine (a.wakeAll (q := .condition k) nofun nofun).bind ?_
  rintro _ c₁ ⟨a₁, -, -, hnil⟩
  exact Returns.get_bind (Returns.modify_bind (finish_spec (a₁.setCondition (Or.inr hnil)) _))

/-! ### Mailboxes -/

/-- A mailbox changes. Its senders and receivers keep their reasons if the number of bytes stays, or
are about to be woken. -/
theorem waitsBut_setMailbox (hw : c.Waits) {m : Mailbox} {X : Queue → Prop} {s : Kernel}
    (hs : s = { c.mem with mailbox := Function.update c.mem.mailbox k m, log := s.log })
    (hfull : ¬ X (.full k) → ∀ x ∈ c.dev (.full k), m.active = true ∧ (c.mem.mailbox k).buffer_idx ≤ m.buffer_idx)
    (hempty : ¬ X (.empty k) → ∀ x ∈ c.dev (.empty k), m.active = true ∧ m.buffer_idx ≤ (c.mem.mailbox k).buffer_idx) :
    St.WaitsBut ⟨s, c.dev⟩ X := by
  intro q x hX hx
  have hr := hw q x hx
  have hother : ∀ k', k' ≠ k → s.mailbox k' = c.mem.mailbox k' := fun k' hk => by rw [hs]; simp [hk]
  have hself : s.mailbox k = m := by rw [hs]; simp
  have hres : s.resume = c.mem.resume := by rw [hs]
  cases q with
  | full k' =>
    by_cases hk : k' = k
    · subst hk
      obtain ⟨ha, hle⟩ := hfull hX x hx
      obtain ⟨-, len, n, he, hlt⟩ := hr
      refine ⟨by rw [hself]; exact ha, len, n, by rw [hres]; exact he, ?_⟩
      rw [hself]
      omega
    · simpa only [Reason, hother k' hk, hres] using hr
  | empty k' =>
    by_cases hk : k' = k
    · subst hk
      obtain ⟨ha, hle⟩ := hempty hX x hx
      obtain ⟨-, len, n, he, hlt⟩ := hr
      refine ⟨by rw [hself]; exact ha, len, n, by rw [hres]; exact he, ?_⟩
      rw [hself]
      omega
    · simpa only [Reason, hother k' hk, hres] using hr
  | ready_queue => trivial
  | sleep_queue => trivial
  | wait y => rw [hs]; exact hr
  | mutex k' => rw [hs]; exact hr
  | barrier k' => rw [hs]; exact hr
  | condition k' => rw [hs]; exact hr

theorem pend_setMailbox {s s' : Kernel} (hp : s.Pend) {m : Mailbox}
    (hs : s' = { s with mailbox := Function.update s.mailbox k m, log := s'.log })
    (hm : m.active = true ∨ ∀ x, s.status x ≠ .TASK_EXITED → (s.resume x).mailbox ≠ some k) : s'.Pend := by
  intro x k' hx hk'
  rw [hs] at hx hk' ⊢
  by_cases hk : k' = k
  · subst hk
    rcases hm with hm | hm
    · simpa using hm
    · exact absurd hk' (hm x hx)
  · have := hp x k' hx hk'
    simpa [hk] using this

/-- A task that changes a mailbox goes on running. -/
theorem At.setMailbox (a : At h i c) {m : Mailbox} {s : Kernel}
    (hs : s = { c.mem with mailbox := Function.update c.mem.mailbox k m, log := s.log })
    (hm : m.active = true ∨ ∀ x, c.mem.status x ≠ .TASK_EXITED → (c.mem.resume x).mailbox ≠ some k)
    (hw : St.Waits ⟨s, c.dev⟩) : At h i ⟨s, c.dev⟩ := by
  refine ⟨⟨?_, ?_, hw, pend_setMailbox a.pend hs hm, ?_⟩, ?_⟩
  · rw [hs]
    exact a.disc
  · rw [hs]
    exact a.up
  · rw [hs]
    exact a.cur
  · rw [hs]
    exact a.here

theorem St.WaitsBut.all {X : Queue → Prop} (hw : c.WaitsBut X) (hX : ∀ q, ¬ X q) : c.Waits :=
  fun q i hi => hw q i (hX q) hi

/-- A mailbox changes, but not the number of bytes in it. -/
theorem waits_setMailbox (hw : c.Waits) {m : Mailbox} {s : Kernel}
    (hs : s = { c.mem with mailbox := Function.update c.mem.mailbox k m, log := s.log })
    (ha : (c.mem.mailbox k).active = true → m.active = true) (hi : m.buffer_idx = (c.mem.mailbox k).buffer_idx) :
    St.Waits ⟨s, c.dev⟩ :=
  (waitsBut_setMailbox (X := fun _ => False) hw hs (fun _ x hx => ⟨ha (hw _ x hx).1, hi.ge⟩)
    (fun _ x hx => ⟨ha (hw _ x hx).1, hi.le⟩)).all fun _ => not_false

theorem do_mbox_open_spec (a : At h i c) (name : Name) : Returns listed c (do_mbox_open i name) fun _ c' => Inv c' := by
  rw [do_mbox_open]
  refine Returns.get_bind ?_
  split
  · next k hk =>
    have hact : (c.mem.mailbox k).active = true := by
      have := List.find?_some hk
      simp only [decide_eq_true_eq] at this
      exact this.1
    refine Returns.modify_bind (finish_spec (a.setMailbox rfl (Or.inl ?_) ?_) _)
    · exact hact
    · refine waits_setMailbox a.waits rfl ?_ ?_
      · exact fun e => e
      · rfl
  · split
    · exact finish_spec a _
    · next k hk =>
      have hinact : (c.mem.mailbox k).active = false := by
        have := List.find?_some hk
        simpa using this
      have hempty : c.dev (.empty k) = [] := List.eq_nil_iff_forall_not_mem.mpr fun x hx => by
        have := (a.waits _ x hx).1
        rw [hinact] at this
        cases this
      have hfull : c.dev (.full k) = [] := List.eq_nil_iff_forall_not_mem.mpr fun x hx => by
        have := (a.waits _ x hx).1
        rw [hinact] at this
        cases this
      refine Returns.modify_bind ?_
      generalize hc₁ : (Conf.mk _ _ : St) = c₁
      have a₁ : At h i c₁ := by
        rw [← hc₁]
        refine a.setMailbox rfl (Or.inl rfl) ?_
        refine (waitsBut_setMailbox (X := fun _ => False) a.waits rfl (fun _ x hx => ?_) (fun _ x hx => ?_)).all
          fun _ => not_false
        · rw [hfull] at hx
          cases hx
        · rw [hempty] at hx
          cases hx
      have hdev : c₁.dev = c.dev := by rw [← hc₁]
      have a₂ : At h i ((St.init c₁ (.empty k)).init (.full k)) := ⟨(a₁.init _).init _, a₁.here⟩
      obtain ⟨hf, hw⟩ := record_frame a₂.disc a₂.waits (.activated k)
      refine Returns.seq (exec_initQueue (by rw [hdev]; exact hempty)) ?_
      refine Returns.seq (exec_initQueue (c := St.init c₁ (.empty k)) (by rw [St.init, hdev]; exact hfull)) ?_
      exact Returns.modify_bind (finish_spec (a₂.frame hf hw) _)

theorem Queue.status_ne (q : Queue) : q.status ≠ .TASK_EXITED := by
  rw [Queue.status]
  split <;> decide

/-- Closing a mailbox for the last time takes that no send or receive on it is under way. -/
theorem do_mbox_close_spec (a : At h i c)
    (hk : (c.mem.mailbox k).cite_num - 1 ≤ 0 → ∀ x, c.mem.status x ≠ .TASK_EXITED → (c.mem.resume x).mailbox ≠ some k) :
    Returns listed c (do_mbox_close i k) fun _ c' => Inv c' := by
  rw [do_mbox_close]
  refine Returns.get_bind (Returns.modify_bind ?_)
  by_cases hlast : (c.mem.mailbox k).cite_num - 1 ≤ 0
  · have hnone := hk hlast
    have hq : ∀ x q, q = .full k ∨ q = .empty k → x ∉ c.dev q := by
      intro x q hq hx
      have hst : c.mem.status x ≠ .TASK_EXITED := by
        rw [a.disc.status hx]
        exact q.status_ne
      have hr := a.waits q x hx
      rcases hq with rfl | rfl
      · obtain ⟨-, len, n, he, -⟩ := hr
        exact hnone x hst (by rw [he]; rfl)
      · obtain ⟨-, len, n, he, -⟩ := hr
        exact hnone x hst (by rw [he]; rfl)
    refine finish_spec (a.setMailbox rfl (Or.inr hnone) ?_) _
    exact (waitsBut_setMailbox (X := fun _ => False) a.waits rfl (fun _ x hx => absurd hx (hq x _ (Or.inl rfl)))
      (fun _ x hx => absurd hx (hq x _ (Or.inr rfl)))).all fun _ => not_false
  · have hsame : ((c.mem.mailbox k).active && !decide ((c.mem.mailbox k).cite_num - 1 ≤ 0)) =
        (c.mem.mailbox k).active := by
      simp only [hlast, decide_false, Bool.not_false, Bool.and_true]
    simp only [hsame]
    have hmail : (c.mem.mailbox k).active = true ∨
        ∀ x, c.mem.status x ≠ .TASK_EXITED → (c.mem.resume x).mailbox ≠ some k := by
      by_cases hact : (c.mem.mailbox k).active = true
      · exact Or.inl hact
      · exact Or.inr fun x hx e => hact (a.pend x k hx e)
    refine finish_spec (a.setMailbox rfl ?_ ?_) _
    · exact hmail
    · refine waits_setMailbox a.waits rfl ?_ ?_
      · exact fun e => e
      · rfl

/-- A round of `do_mbox_send` comes back in order, or does not come back at all. -/
theorem do_mbox_send_spec (a : At h i c) (hk : (c.mem.mailbox k).active = true) (msg : ℕ → UInt8) (len n : ℤ) :
    Returns listed c (do_mbox_send h i k msg len n) (fun _ c' => Inv c') ∨
      ∀ (σ : Type) (H : Handler Op Op.Res σ) (d : σ), exec H (do_mbox_send h i k msg len n) ⟨c.mem, d⟩ = none := by
  by_cases hover : 2 ^ 31 ≤ (c.mem.mailbox k).buffer_idx + len
  · refine Or.inr fun σ H d => ?_
    simp only [do_mbox_send, exec_bind, exec_get, Option.bind_some, if_pos hover, exec_stop]
  by_cases hfit : (c.mem.mailbox k).buffer_idx + len ≤ (MAX_MBOX_LENGTH : ℤ)
  · by_cases hneg : len < 0
    · refine Or.inr fun σ H d => ?_
      simp only [do_mbox_send, exec_bind, exec_get, Option.bind_some, if_neg hover, if_pos hfit, if_pos hneg, exec_stop]
    · refine Or.inl ?_
      rw [do_mbox_send]
      refine Returns.get_bind ?_
      simp only [if_neg hover, if_pos hfit, if_neg hneg]
      refine Returns.modify_bind (Returns.modify_bind ?_)
      generalize hc₁ : (Conf.mk _ _ : St) = c₁
      have hw₁ : St.WaitsBut c₁ (· = .empty k) := by
        rw [← hc₁]
        refine waitsBut_setMailbox a.waits rfl (fun _ x _ => ⟨hk, ?_⟩) (fun hX => absurd rfl hX)
        show _ ≤ (c.mem.mailbox k).buffer_idx + len
        omega
      have hd₁ : St.Disc c₁ := by rw [← hc₁]; exact a.disc
      have hu₁ : ∀ x, c₁.mem.status x ≠ .TASK_EXITED → c₁.dev.up x := by rw [← hc₁]; exact a.up
      have hp₁ : c₁.mem.Pend := by rw [← hc₁]; exact pend_setMailbox (k := k) a.pend rfl (Or.inl hk)
      have hcur : ∀ h' j, c₁.mem.current_running h' = some j → c₁.mem.status j = .TASK_RUNNING := by
        rw [← hc₁]; exact a.cur
      have hhere : c₁.mem.current_running h = some i := by rw [← hc₁]; exact a.here
      refine (wakeAll_spec (q := .empty k) hd₁ nofun nofun).bind ?_
      rintro _ c₂ ⟨hf, hm, hnil⟩
      have hw₂ := (hf.waitsBut hm hw₁).waits hnil
      refine finish_spec (h := h)
        ⟨⟨hf.disc, hf.isUp hu₁, hw₂, hf.pend hp₁, fun h' j hj => ?_⟩, by rw [hf.current]; exact hhere⟩ _
      rw [hf.current] at hj
      exact hf.running_iff.mpr (hcur h' j hj)
  · refine Or.inl ?_
    rw [do_mbox_send]
    refine Returns.get_bind ?_
    simp only [if_neg hover, if_neg hfit]
    refine blockIn_spec a nofun nofun ?_ ⟨hk, len, n + 1, ?_, ?_⟩
    · rintro _ ⟨⟩
      exact hk
    · exact Function.update_self ..
    · show _ < (c.mem.mailbox k).buffer_idx + len
      omega

/-- A round of `do_mbox_recv` comes back in order, or does not come back at all. -/
theorem do_mbox_recv_spec (a : At h i c) (hk : (c.mem.mailbox k).active = true) (len n : ℤ) :
    Returns listed c (do_mbox_recv h i k len n) (fun _ c' => Inv c') ∨
      ∀ (σ : Type) (H : Handler Op Op.Res σ) (d : σ), exec H (do_mbox_recv h i k len n) ⟨c.mem, d⟩ = none := by
  by_cases hfit : 0 ≤ (c.mem.mailbox k).buffer_idx - len
  · by_cases hneg : len < 0
    · refine Or.inr fun σ H d => ?_
      simp only [do_mbox_recv, exec_bind, exec_get, Option.bind_some, if_pos hfit, if_pos hneg, exec_stop]
    · refine Or.inl ?_
      rw [do_mbox_recv]
      refine Returns.get_bind ?_
      simp only [if_pos hfit, if_neg hneg]
      refine Returns.modify_bind (Returns.modify_bind ?_)
      generalize hc₁ : (Conf.mk _ _ : St) = c₁
      have hw₁ : St.WaitsBut c₁ (· = .full k) := by
        rw [← hc₁]
        refine waitsBut_setMailbox a.waits rfl (fun hX => absurd rfl hX) (fun _ x _ => ⟨hk, ?_⟩)
        show (c.mem.mailbox k).buffer_idx - len ≤ _
        omega
      have hd₁ : St.Disc c₁ := by rw [← hc₁]; exact a.disc
      have hu₁ : ∀ x, c₁.mem.status x ≠ .TASK_EXITED → c₁.dev.up x := by rw [← hc₁]; exact a.up
      have hp₁ : c₁.mem.Pend := by rw [← hc₁]; exact pend_setMailbox (k := k) a.pend rfl (Or.inl hk)
      have hcur : ∀ h' j, c₁.mem.current_running h' = some j → c₁.mem.status j = .TASK_RUNNING := by
        rw [← hc₁]; exact a.cur
      have hhere : c₁.mem.current_running h = some i := by rw [← hc₁]; exact a.here
      refine (wakeAll_spec (q := .full k) hd₁ nofun nofun).bind ?_
      rintro _ c₂ ⟨hf, hm, hnil⟩
      have hw₂ := (hf.waitsBut hm hw₁).waits hnil
      refine finish_spec (h := h)
        ⟨⟨hf.disc, hf.isUp hu₁, hw₂, hf.pend hp₁, fun h' j hj => ?_⟩, by rw [hf.current]; exact hhere⟩ _
      rw [hf.current] at hj
      exact hf.running_iff.mpr (hcur h' j hj)
  · refine Or.inl ?_
    rw [do_mbox_recv]
    refine Returns.get_bind ?_
    simp only [if_neg hfit]
    refine blockIn_spec a nofun nofun ?_ ⟨hk, len, n + 1, ?_, ?_⟩
    · rintro _ ⟨⟩
      exact hk
    · exact Function.update_self ..
    · show (c.mem.mailbox k).buffer_idx < len
      omega

end OsLab.Sched
