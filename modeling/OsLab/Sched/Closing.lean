import OsLab.Sched.Stays

/-!
# Tasks that wait on a mailbox

A task that blocks in `do_mbox_send` or `do_mbox_recv` waits in `full_queue` or `empty_queue` of the mailbox
until a receive or a send completes there. `do_mbox_close` does not wake it, unlike `do_barrier_destroy` and
`do_condition_destroy`: the last close of a mailbox only marks it as free, and the next `do_mbox_open` may give
it to another name and initialise its queues. So a task that is blocked when the last close happens is stranded
(`mbox_close_strands`). As long as no mailbox is closed for good while a send or a receive on it is under way, every
task that has blocked is made ready or is still in its queue, and the mailbox is the one that it has used
(`served_of_blocks`).
-/

namespace OsLab.Sched

open Lib ProgM

variable {c c' : St} {m : Kernel} {s s' : Machine} {h : Hart}
    {a : Action} {i x : Slot} {k k' : Handle} {q : Queue} {nm : Name}
  {P : Kernel → Hart → Action → Prop}

/-! ### Blocking on a mailbox -/

/-- Task `i` calls `do_mbox_send` or `do_mbox_recv` on mailbox `k`, or goes on in one. -/
def UsesBox (i : Slot) (k : Handle) (m : Kernel) : Action → Prop
  | .call (.do_mbox_send k' _ _) => k' = k
  | .call (.do_mbox_recv k' _) => k' = k
  | .resume _ => (m.resume i).mailbox = some k
  | _ => False

instance (i : Slot) (k : Handle) (m : Kernel) (a : Action) : Decidable (UsesBox i k m a) := by
  unfold UsesBox
  split <;> infer_instance

/-- Runs from the step in which task `i` blocks on mailbox `k`, which has the name `nm`, as long as the task is
blocked. Every step meets `P`. -/
inductive Blocks (P : Kernel → Hart → Action → Prop) (i : Slot) (k : Handle) (nm : Name) : Machine → Prop where
  /-- The task blocks. -/
  | block {s s' : Machine} {h : Hart} {a : Action} (hr : Reach P s)
      (hi : s.mem.current_running h = some i) (ha : UsesBox i k s.mem a)
      (hp : P s.mem h a) (hs : Step h a s s') (hb : s'.mem.status i = .TASK_BLOCKED)
      (hn : (s.mem.mailbox k).name = nm) : Blocks P i k nm s'
  /-- Any step. -/
  | step {s s' : Machine} {h : Hart} {a : Action} (hr : Blocks P i k nm s)
      (hb : s.mem.status i = .TASK_BLOCKED) (hp : P s.mem h a)
      (hs : Step h a s s') : Blocks P i k nm s'

/-- Task `i` is ready, or a member of a queue of mailbox `k`, which is active and has the name `nm`. -/
def Served (i : Slot) (k : Handle) (nm : Name) (s : Machine) : Prop :=
  s.mem.status i = .TASK_READY ∨
    ∃ (q : Queue) (l : List Slot), (q = .full k ∨ q = .empty k) ∧ s.dev.Ring (.head q) (l.map .task) ∧ i ∈ l ∧
    (s.mem.mailbox k).active = true ∧ (s.mem.mailbox k).name = nm

/-- A mailbox is used and closed while it is open. -/
def WhileOpen (m : Kernel) (_ : Hart) : Action → Prop
  | .call (.do_mbox_close k) => (m.mailbox k).active = true
  | .call (.do_kill _) => False
  | a => a.Valid m

instance (m : Kernel) (h : Hart) (a : Action) : Decidable (WhileOpen m h a) := by
  unfold WhileOpen
  split <;> infer_instance

/-! ### The name of an active mailbox -/

/-- Mailbox `k` keeps its name. -/
def SameName (k : Handle) (m m' : Kernel) : Prop := (m'.mailbox k).name = (m.mailbox k).name

instance : Std.Refl (SameName k) := ⟨fun _ => rfl⟩

instance : IsTrans Kernel (SameName k) := ⟨fun _ _ _ h₁ h₂ => Eq.trans h₂ h₁⟩

theorem sameName_ambient : Ambient h (SameName k) :=
  ⟨fun n => by rw [SameName, n.mailbox], fun _ _ => rfl, fun _ _ => rfl, fun _ _ => rfl, fun _ _ _ => rfl⟩

theorem record_name (e : Event) : Keeps (SameName k) (record e) := Keeps.modify fun _ => rfl

/-- A mailbox is changed that is another one, or that keeps its name. -/
theorem setMailbox_name {b : Mailbox} (hb : k' = k → b.name = (m.mailbox k).name) :
    Partial m (setMailbox k' b) fun _ m' => SameName k m m' := by
  refine Partial.modify ?_
  by_cases hk : k' = k
  · subst hk
    simpa [SameName] using hb rfl
  · simp [SameName, Ne.symm hk]

/-- After a change of a mailbox, what is left to do is noise. -/
theorem setMailbox_name_bind {b : Mailbox} {y : SchedM Unit}
    (hb : k' = k → b.name = (m.mailbox k).name) (hy : Keeps (SameName k) y) :
    Partial m (do setMailbox k' b; y) fun _ m' => SameName k m m' :=
  (setMailbox_name hb).bind fun _ m₁ h₁ => (hy m₁).mono fun _ _ h₂ => IsTrans.trans _ _ _ h₁ h₂

theorem sameName_boxes (hact : (m.mailbox k).active = true) : BoxesAt h (SameName k) m := by
  have hr : Ambient h (SameName k) := sameName_ambient
  refine ⟨fun i name => Partial.get_bind ?_, fun i k' => Partial.get_bind ?_, fun i k' msg len n => Partial.get_bind ?_,
    fun i k' len n => Partial.get_bind ?_⟩
  · split
    · refine setMailbox_name_bind ?_ (hr.quiet (finish_noise _))
      rintro rfl
      rfl
    · split
      · exact hr.quiet (finish_noise _) m
      · next k' hk' =>
        refine setMailbox_name_bind ?_ ?_
        · rintro rfl
          have := List.find?_some hk'
          simp [hact] at this
        · refine (Keeps.perform (Op.init _)).bind fun _ => (Keeps.perform (Op.init _)).bind fun _ => ?_
          exact (record_name _).bind fun _ => hr.quiet (finish_noise _)
  · refine setMailbox_name_bind ?_ (hr.quiet (finish_noise _))
    rintro rfl
    rfl
  · refine Partial.ite (fun _ => Partial.stop) fun _ =>
      Partial.ite (fun _ => Partial.ite (fun _ => Partial.stop) fun _ => ?_) fun _ => ?_
    · refine setMailbox_name_bind ?_
        ((record_name _).bind fun _ => hr.quiet (wakeAll_noise.bind fun _ => finish_noise _))
      rintro rfl
      rfl
    · exact hr.acting (blockIn_noise _) m
  · refine Partial.ite (fun _ => Partial.ite (fun _ => Partial.stop) fun _ => ?_) fun _ => ?_
    · refine setMailbox_name_bind ?_
        ((record_name _).bind fun _ => hr.quiet (wakeAll_noise.bind fun _ => finish_noise _))
      rintro rfl
      rfl
    · exact hr.acting (blockIn_noise _) m

/-- An active mailbox keeps its name. -/
theorem act_name (hact : (m.mailbox k).active = true) (a : Action) : Partial m (act h a) fun _ m' => SameName k m m' :=
  act_partial sameName_ambient (sameName_boxes hact) a

/-! ### Entering a queue -/

/-- The round in which a send or a receive completes leaves a task in its queue, or makes it ready. -/
theorem complete_stays {p : Queue} {b : Mailbox} {e : Event} {n : ℤ}
    (hq : q.Aside) (hd : c.Disc) (hp : p.Aside) (hup : c.dev.Up p)
    (hi : i ∈ c.dev q) : Ensures listed c (do
      setMailbox k b
      record e
      wakeAll p
      finish x n) fun _ c' => i ∈ c'.dev q ∨ c'.mem.status i = .TASK_READY := by
  by_cases hne : p = q
  · subst hne
    refine Ensures.modify_bind (Ensures.modify_bind ?_)
    generalize hc₁ : (Conf.mk _ _ : St) = c₁
    have hd₁ : St.Disc c₁ := by
      rw [← hc₁]
      exact hd
    have hdev : c₁.dev = c.dev := by rw [← hc₁]
    refine (Ensures.of_returns (wakeAll_spec hd₁ hp.ne_ready (by rw [hdev]; exact hup))).bind ?_
    rintro _ c₂ ⟨hf, -, hnil⟩
    exact Ensures.modify (Or.inr (hf.woken hd₁ hp.ne_ready (by rw [hdev]; exact hi) hnil))
  · have hspares : Spares q (some x) (do setMailbox k b; record e; wakeAll p; finish x n) :=
      (setMailbox_spares _).bind fun _ => (record_spares _).bind fun _ => (hq.wake hne).bind fun _ => finish_spares _
    refine (hspares c hd.apart).mono fun _ c' hc' => Or.inl ?_
    rw [hc'.2.1]
    exact hi

theorem do_mbox_send_stays (hq : q.Aside) (hd : c.Disc) (hi : i ∈ c.dev q) (msg : ℕ → UInt8) (len n : ℤ) :
    Ensures listed c (do_mbox_send h x k msg len n) fun _ c' => i ∈ c'.dev q ∨ c'.mem.status i = .TASK_READY := by
  refine Ensures.get_bind (Ensures.ite (fun _ => Ensures.stop) fun _ =>
    Ensures.ite (fun _ => Ensures.ite (fun _ => Ensures.stop) fun _ => ?_) fun _ => ?_)
  · exact complete_stays (p := .empty k) hq hd trivial nofun hi
  · exact (blockIn_stays hq hd.apart hi _).mono fun _ _ hc' => Or.inl hc'

theorem do_mbox_recv_stays (hq : q.Aside) (hd : c.Disc) (hi : i ∈ c.dev q) (len n : ℤ) :
    Ensures listed c (do_mbox_recv h x k len n) fun _ c' => i ∈ c'.dev q ∨ c'.mem.status i = .TASK_READY := by
  refine Ensures.get_bind (Ensures.ite (fun _ => Ensures.ite (fun _ => Ensures.stop) fun _ => ?_) fun _ => ?_)
  · exact complete_stays (p := .full k) hq hd trivial nofun hi
  · exact (blockIn_stays hq hd.apart hi _).mono fun _ _ hc' => Or.inl hc'

/-- The round in which the own send or receive completes does not block. -/
theorem complete_running {p : Queue} {b : Mailbox} {e : Event} {n : ℤ}
    (ha : At h i c) (hp : p.Aside) (hup : c.dev.Up p) : Ensures listed c (do
      setMailbox k b
      record e
      wakeAll p
      finish i n) fun _ c' => c'.mem.status i = .TASK_RUNNING := by
  refine Ensures.modify_bind (Ensures.modify_bind ?_)
  generalize hc₁ : (Conf.mk _ _ : St) = c₁
  have hd₁ : St.Disc c₁ := by
    rw [← hc₁]
    exact ha.disc
  have hrun : c₁.mem.status i = .TASK_RUNNING := by
    rw [← hc₁]
    exact ha.running
  refine (Ensures.of_returns (wakeAll_spec hd₁ hp.ne_ready (by rw [← hc₁]; exact hup))).bind ?_
  rintro _ c₂ ⟨hf, -, -⟩
  exact Ensures.modify (hf.running_iff.mpr hrun)

theorem do_mbox_send_enters (ha : At h i c) (msg : ℕ → UInt8) (len n : ℤ) :
    Ensures listed c (do_mbox_send h i k msg len n) fun _ c' =>
    c'.mem.status i = .TASK_BLOCKED → i ∈ c'.dev (.full k) := by
  refine Ensures.get_bind (Ensures.ite (fun _ => Ensures.stop) fun _ =>
    Ensures.ite (fun _ => Ensures.ite (fun _ => Ensures.stop) fun _ => ?_) fun _ => ?_)
  · refine (complete_running (p := .empty k) ha trivial nofun).mono fun _ c' hrun hb => ?_
    rw [hrun] at hb
    cases hb
  · refine (blockIn_appends (q := .full k) trivial ha.disc.apart _).mono fun _ c' hc' _ => ?_
    rw [hc']
    exact List.mem_append_right _ (List.mem_singleton_self i)

theorem do_mbox_recv_enters (ha : At h i c) (len n : ℤ) : Ensures listed c (do_mbox_recv h i k len n) fun _ c' =>
    c'.mem.status i = .TASK_BLOCKED → i ∈ c'.dev (.empty k) := by
  refine Ensures.get_bind (Ensures.ite (fun _ => Ensures.ite (fun _ => Ensures.stop) fun _ => ?_) fun _ => ?_)
  · refine (complete_running (p := .full k) ha trivial nofun).mono fun _ c' hrun hb => ?_
    rw [hrun] at hb
    cases hb
  · refine (blockIn_appends (q := .empty k) trivial ha.disc.apart _).mono fun _ c' hc' _ => ?_
    rw [hc']
    exact List.mem_append_right _ (List.mem_singleton_self i)

/-- A task goes on in the kernel. -/
theorem Ensures.act_resume {msg : ℕ → UInt8} {post : Unit → St → Prop} (hi : c.mem.current_running h = some x)
    (hx : Ensures listed c (goOn h x msg (c.mem.resume x)) post) : Ensures listed c (act h (.resume msg)) post := by
  refine Ensures.get_bind ?_
  simpa only [hi] using hx

/-- A mailbox that is used is active. -/
theorem active_of_usesBox (ha : At h i c) (hv : a.Valid c.mem) (hu : UsesBox i k c.mem a) :
    (c.mem.mailbox k).active = true := by
  cases a with
  | timer => exact hu.elim
  | resume msg =>
    refine ha.pend i k ?_ hu
    rw [ha.running]
    decide
  | call call =>
    cases call with
    | do_mbox_send k' msg len =>
      obtain rfl : k' = k := hu
      exact hv
    | do_mbox_recv k' len =>
      obtain rfl : k' = k := hu
      exact hv
    | _ => exact hu.elim

/-- A task that blocks on a mailbox is in one of its queues. -/
theorem act_enters (ha : At h i c) (hu : UsesBox i k c.mem a) : Ensures listed c (act h a) fun _ c' =>
    c'.mem.status i = .TASK_BLOCKED → i ∈ c'.dev (.full k) ∨ i ∈ c'.dev (.empty k) := by
  cases a with
  | timer => exact hu.elim
  | resume msg =>
    refine Ensures.act_resume ha.here ?_
    have hu : (c.mem.resume i).mailbox = some k := hu
    cases hr : c.mem.resume i with
    | send k' len n =>
      rw [hr] at hu
      obtain rfl := Option.some.inj hu
      exact (do_mbox_send_enters ha msg len n).mono fun _ _ hin hb => Or.inl (hin hb)
    | recv k' len n =>
      rw [hr] at hu
      obtain rfl := Option.some.inj hu
      exact (do_mbox_recv_enters ha len n).mono fun _ _ hin hb => Or.inr (hin hb)
    | _ =>
      rw [hr] at hu
      cases hu
  | call call =>
    refine Ensures.act_call ha ?_
    cases call with
    | do_mbox_send k' msg len =>
      obtain rfl : k' = k := hu
      exact (do_mbox_send_enters ha msg len 0).mono fun _ _ hin hb => Or.inl (hin hb)
    | do_mbox_recv k' len =>
      obtain rfl : k' = k := hu
      exact (do_mbox_recv_enters ha len 0).mono fun _ _ hin hb => Or.inr (hin hb)
    | _ => exact hu.elim

/-! ### Staying in the queue -/

theorem goOn_stays (hq : q.Aside) (hd : c.Disc) (hi : i ∈ c.dev q) (msg : ℕ → UInt8) (r : Resume) :
    Ensures listed c (goOn h x msg r) fun _ c' => i ∈ c'.dev q ∨ c'.mem.status i = .TASK_READY := by
  have hrest : r.mailbox = none →
      Ensures listed c (goOn h x msg r) fun _ c' => i ∈ c'.dev q ∨ c'.mem.status i = .TASK_READY := by
    intro hr
    have hpass : r.Passes q := by
      intro k hk
      rw [hr] at hk
      cases hk
    refine (goOn_spares hq msg r hpass c hd.apart).mono fun _ c' hc' => Or.inl ?_
    rw [hc'.2.1]
    exact hi
  cases r with
  | send k len n => exact do_mbox_send_stays hq hd hi msg len n
  | recv k len n => exact do_mbox_recv_stays hq hd hi len n
  | _ => exact hrest rfl

/-- What a step does to a task that waits on a mailbox. -/
theorem act_serves (hq : q = .full k ∨ q = .empty k) (hinv : Inv c) (hk : KillOk c.mem h a) (hi : i ∈ c.dev q) :
    Ensures listed c (act h a) fun _ c' =>
    i ∈ c'.dev q ∨ c'.mem.status i = .TASK_READY ∨ c'.mem.status i = .TASK_EXITED := by
  have haside : q.Aside := by
    rcases hq with rfl | rfl
    · trivial
    · trivial
  have hmeets : ¬ q.Meets := by
    rcases hq with rfl | rfl
    · exact id
    · exact id
  have hwait : ∀ t, .wait t ≠ q := by
    rintro t rfl
    rcases hq with e | e <;> cases e
  intro r c' he
  by_cases hends : (∃ pid, a = .call (.do_kill pid)) ∨ a = .call .do_exit
  · rcases act_ends_stays haside hinv hk hends hi r c' he with hin | hex | ⟨t, e, -⟩
    · exact Or.inl hin
    · exact Or.inr (Or.inr hex)
    · exact absurd e.symm (hwait t)
  rw [not_or, not_exists] at hends
  obtain ⟨hkill, hexit⟩ := hends
  have hready : ∀ {c' : St}, i ∈ c'.dev q ∨ c'.mem.status i = .TASK_READY →
      i ∈ c'.dev q ∨ c'.mem.status i = .TASK_READY ∨ c'.mem.status i = .TASK_EXITED := fun hc' => hc'.imp_right Or.inl
  by_cases hsend : ∃ k' msg len, a = .call (.do_mbox_send k' msg len)
  · obtain ⟨k', msg, len, rfl⟩ := hsend
    obtain ⟨x, hx⟩ := exists_task he fun _ _ _ => ⟨nofun, nofun, nofun⟩
    exact hready (Ensures.act_call ⟨hinv, hx⟩ (e := .do_mbox_send k' msg len)
      (do_mbox_send_stays haside hinv.disc hi msg len 0) r c' he)
  by_cases hrecv : ∃ k' len, a = .call (.do_mbox_recv k' len)
  · obtain ⟨k', len, rfl⟩ := hrecv
    obtain ⟨x, hx⟩ := exists_task he fun _ _ _ => ⟨nofun, nofun, nofun⟩
    exact hready (Ensures.act_call ⟨hinv, hx⟩ (e := .do_mbox_recv k' len)
      (do_mbox_recv_stays haside hinv.disc hi len 0) r c' he)
  by_cases hres : ∃ msg x, a = .resume msg ∧ c.mem.current_running h = some x
  · obtain ⟨msg, x, rfl, hx⟩ := hres
    exact hready (Ensures.act_resume hx (goOn_stays haside hinv.disc hi msg _) r c' he)
  · refine (Stays.of_spares hi hinv.disc (act_aside haside (spares_of_kill hmeets hkill) ?_ ?_) r c' he).imp_right
      fun hc' => ?_
    · rintro x call - rfl
      cases call with
      | do_exit => exact absurd rfl hexit
      | do_waitpid pid => exact hwait
      | do_pthread_join thread => exact hwait
      | do_mbox_send k' msg len => exact absurd ⟨k', msg, len, rfl⟩ hsend
      | do_mbox_recv k' len => exact absurd ⟨k', len, rfl⟩ hrecv
      | _ => trivial
    · rintro x msg hx rfl
      exact absurd ⟨msg, x, rfl, hx⟩ hres
    · rcases hc' with hex | ⟨t, e, -⟩
      · exact Or.inr hex
      · exact absurd e.symm (hwait t)

/-! ### Runs -/

/-- What every run keeps: the queues are in order, and a task that has neither been woken nor ended is in a queue of
the mailbox, which has kept its name. -/
theorem Blocks.kept (hr : Blocks NoRemoteKill i k nm s) : ∃ Q : Queues, Repr Q s.dev ∧ Inv ⟨s.mem, Q⟩ ∧
    (s.mem.status i = .TASK_READY ∨ s.mem.status i = .TASK_EXITED ∨
      ∃ q, (q = .full k ∨ q = .empty k) ∧ i ∈ Q q ∧ (s.mem.mailbox k).active = true ∧ (s.mem.mailbox k).name = nm) := by
  have hactive : ∀ {m : Kernel} {Q : Queues} {q : Queue},
      Inv ⟨m, Q⟩ → (q = .full k ∨ q = .empty k) → i ∈ Q q → (m.mailbox k).active = true := by
    rintro m Q q hinv (rfl | rfl) hi
    · exact (hinv.waits _ _ hi).1
    · exact (hinv.waits _ _ hi).1
  induction hr with
  | @block s s' h a hr hi ha hp hs hb hn =>
    obtain ⟨Q, hrep, hinv⟩ := hr.sound fun _ _ _ hp => hp
    obtain ⟨Q', hrep', hinv', he⟩ := hs.listed hrep hinv hp.1 hp.2
    obtain ⟨q, hq, hin⟩ : ∃ q, (q = .full k ∨ q = .empty k) ∧ i ∈ Q' q := by
      rcases act_enters (c := ⟨s.mem, Q⟩) ⟨hinv, hi⟩ ha _ _ he hb with hin | hin
      · exact ⟨_, Or.inl rfl, hin⟩
      · exact ⟨_, Or.inr rfl, hin⟩
    have hact : (s.mem.mailbox k).active = true := active_of_usesBox (c := ⟨s.mem, Q⟩) ⟨hinv, hi⟩ hp.1 ha
    have hname : SameName k s.mem s'.mem := act_name hact a _ _ _ _ _ hs.2
    exact ⟨Q', hrep', hinv', Or.inr (Or.inr ⟨q, hq, hin, hactive hinv' hq hin, hname.trans hn⟩)⟩
  | @step s s' h a hr hb hp hs ih =>
    obtain ⟨Q, hrep, hinv, hrest⟩ := ih
    obtain ⟨Q', hrep', hinv', he⟩ := hs.listed hrep hinv hp.1 hp.2
    refine ⟨Q', hrep', hinv', ?_⟩
    rcases hrest with hst | hst | ⟨q, hq, hin, hact, hn⟩
    · rw [hb] at hst
      cases hst
    · rw [hb] at hst
      cases hst
    · have hname : SameName k s.mem s'.mem := act_name hact a _ _ _ _ _ hs.2
      rcases act_serves hq hinv hp.2 hin _ _ he with hin | hst | hst
      · exact Or.inr (Or.inr ⟨q, hq, hin, hactive hinv' hq hin, hname.trans hn⟩)
      · exact Or.inl hst
      · exact Or.inr (Or.inl hst)

/-- **Closing a mailbox strands nobody**, as long as no mailbox is closed for the last time while a send or a
receive on it is under way: in every run a task that has blocked on a mailbox, and has not been killed, is ready, or
a member of a queue of the mailbox, which is active and still has its name. -/
theorem served_of_blocks (hr : Blocks NoRemoteKill i k nm s) (hi : s.mem.status i ≠ .TASK_EXITED) :
    Served i k nm s := by
  obtain ⟨Q, hrep, -, hready | hex | ⟨q, hq, hin, hact, hn⟩⟩ := hr.kept
  · exact Or.inl hready
  · exact absurd hex hi
  · exact Or.inr ⟨q, Q q, hq, hrep.ring q (hrep.up_of_mem hin), hin, hact, hn⟩

/-- Two processes are started and open the same mailbox, and the first one runs again. -/
def bothOpen : List (Hart × Action) :=
  meeting ++ [(0, .call (.do_mbox_open ⟨[], length_nil_lt⟩)), (0, .timer),
    (0, .call (.do_mbox_open ⟨[], length_nil_lt⟩)), (0, .timer)]

/-- The first process receives from the empty mailbox, and the second one closes the mailbox, which the
first has open: the first process waits in a queue of the mailbox. -/
theorem served_receiver : ∃ (nm : Name) (s s' : Machine), s.mem.status ⟨0, by decide⟩ = .TASK_BLOCKED ∧
    Step 0 (.call (.do_mbox_close ⟨0, by decide⟩)) s s' ∧ s'.mem.status ⟨0, by decide⟩ = .TASK_BLOCKED ∧
    Served ⟨0, by decide⟩ ⟨0, by decide⟩ nm s' := by
  have hrun : (stepsIf (fun m h a => decide (NoRemoteKill m h a)) bothOpen .start).bind (fun s =>
      (exec pointers (act 0 (.call (.do_mbox_recv ⟨0, by decide⟩ 1))) s).bind fun r =>
        (exec pointers (act 0 (.call (.do_mbox_close ⟨0, by decide⟩))) r.2).map fun r' =>
          decide ((Enabled s.mem 0 (.call (.do_mbox_recv ⟨0, by decide⟩ 1)) ∧
            s.mem.current_running 0 = some ⟨0, by decide⟩ ∧
            (s.mem.mailbox ⟨0, by decide⟩).active = true) ∧ r.2.mem.status ⟨0, by decide⟩ = .TASK_BLOCKED ∧
            (Enabled r.2.mem 0 (.call (.do_mbox_close ⟨0, by decide⟩)) ∧
              NoRemoteKill r.2.mem 0 (.call (.do_mbox_close ⟨0, by decide⟩))) ∧
            r'.2.mem.status ⟨0, by decide⟩ = .TASK_BLOCKED)) = some true := by
    decide +kernel
  obtain ⟨s, hs, hrun⟩ := Option.bind_eq_some_iff.mp hrun
  obtain ⟨⟨⟨⟩, s₁⟩, hs₁, hrun⟩ := Option.bind_eq_some_iff.mp hrun
  obtain ⟨⟨⟨⟩, s₂⟩, hs₂, hrun⟩ := Option.map_eq_some_iff.mp hrun
  obtain ⟨⟨hen, hcur, hact⟩, hb, ⟨hen₁, hp₁⟩, hb₂⟩ := of_decide_eq_true hrun
  have hr : Reach NoRemoteKill s := (Reach.boot boot_start).stepsIf (fun _ _ _ => of_decide_eq_true) hs
  have hblocks := Blocks.block hr hcur (k := ⟨0, by decide⟩)
    (a := .call (.do_mbox_recv ⟨0, by decide⟩ 1)) rfl ⟨hact, nofun⟩ ⟨hen, hs₁⟩ hb rfl
  have hblocks₂ := hblocks.step hb hp₁ ⟨hen₁, hs₂⟩
  have hb₂ : s₂.mem.status ⟨0, by decide⟩ = .TASK_BLOCKED := hb₂
  exact ⟨_, s₁, s₂, hb, ⟨hen₁, hs₂⟩, hb₂, served_of_blocks hblocks₂ (by rw [hb₂]; decide)⟩

/-- Two processes are started, and the first opens a mailbox. -/
def opened : List (Hart × Action) := meeting ++ [(0, .call (.do_mbox_open ⟨[], length_nil_lt⟩))]

/-- The second process closes the mailbox: the first one is left in a queue of a mailbox that is free. -/
theorem mbox_close_strands : ¬ ∀ (i : Slot) (k : Handle) (nm : Name) (s : Machine), Blocks WhileOpen i k nm s →
    s.mem.status i ≠ .TASK_EXITED → Served i k nm s := by
  intro hall
  have hrun : (stepsIf (fun m h a => decide (WhileOpen m h a)) opened .start).bind (fun s =>
      (exec pointers (act 0 (.call (.do_mbox_recv ⟨0, by decide⟩ 1))) s).bind fun r =>
          (exec pointers (act 0 (.call (.do_mbox_close ⟨0, by decide⟩))) r.2).map fun r' =>
        decide (Enabled s.mem 0 (.call (.do_mbox_recv ⟨0, by decide⟩ 1)) ∧
          s.mem.current_running 0 = some ⟨0, by decide⟩ ∧
          (s.mem.mailbox ⟨0, by decide⟩).active = true ∧ r.2.mem.status ⟨0, by decide⟩ = .TASK_BLOCKED ∧
          Enabled r.2.mem 0 (.call (.do_mbox_close ⟨0, by decide⟩)) ∧ (r.2.mem.mailbox ⟨0, by decide⟩).active = true ∧
          r'.2.mem.status ⟨0, by decide⟩ = .TASK_BLOCKED ∧ (r'.2.mem.mailbox ⟨0, by decide⟩).active = false)) =
          some true := by
    decide +kernel
  obtain ⟨s, hs, hrun⟩ := Option.bind_eq_some_iff.mp hrun
  obtain ⟨⟨⟨⟩, s₁⟩, hs₁, hrun⟩ := Option.bind_eq_some_iff.mp hrun
  obtain ⟨⟨⟨⟩, s₂⟩, hs₂, hrun⟩ := Option.map_eq_some_iff.mp hrun
  obtain ⟨hen, hcur, hact, hb, hen₁, hact₁, hb₂, hact₂⟩ := of_decide_eq_true hrun
  have hr : Reach WhileOpen s := (Reach.boot boot_start).stepsIf (fun _ _ _ => of_decide_eq_true) hs
  have hblocks := Blocks.block hr hcur (k := ⟨0, by decide⟩)
    (a := .call (.do_mbox_recv ⟨0, by decide⟩ 1)) rfl hact ⟨hen, hs₁⟩ hb rfl
  have hblocks₂ := hblocks.step hb (a := .call (.do_mbox_close ⟨0, by decide⟩)) hact₁ ⟨hen₁, hs₂⟩
  have hb₂ : s₂.mem.status ⟨0, by decide⟩ = .TASK_BLOCKED := hb₂
  have hact₂ : (s₂.mem.mailbox ⟨0, by decide⟩).active = false := hact₂
  rcases hall _ _ _ s₂ hblocks₂ (by rw [hb₂]; decide) with hready | ⟨q, l, -, -, -, hact, -⟩
  · rw [hb₂] at hready
    cases hready
  · rw [hact₂] at hact
    cases hact

end OsLab.Sched
