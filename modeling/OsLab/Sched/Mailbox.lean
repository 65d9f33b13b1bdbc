import OsLab.Sched.Runs

/-!
# Mailboxes are byte streams

The messages that were sent to a mailbox since it was activated, one after the other, are its stream.
What has been received is a beginning of the stream, and the buffer holds the rest (`Stream`). Sends and
receives may be interrupted and retried in any order, by tasks on both harts: only the round in
which one completes touches the mailbox, and it runs alone and records the message (`mbox_calls_once`). A
receive moves the rest of the buffer to the front with a forward copy onto overlapping bytes, which is safe
in this direction (`memcpyWithin_apply`).
-/

namespace OsLab.Sched

open Lib ProgM

/-! ### The stream -/

/-- The messages of the sends on mailbox `k` that completed since it was activated. -/
def sentStep (k : Handle) (msgs : List (List UInt8)) : Event → List (List UInt8)
  | .activated k' => if k' = k then [] else msgs
  | .sent k' msg => if k' = k then msgs ++ [msg] else msgs
  | _ => msgs

/-- What the receives on mailbox `k` returned that completed since it was activated. -/
def receivedStep (k : Handle) (msgs : List (List UInt8)) : Event → List (List UInt8)
  | .activated k' => if k' = k then [] else msgs
  | .received k' msg => if k' = k then msgs ++ [msg] else msgs
  | _ => msgs

/-- The messages sent to mailbox `k` since it was activated, in the order of completion. -/
def sentMessages (k : Handle) (log : List Event) : List (List UInt8) := log.foldl (sentStep k) []

/-- The messages received from mailbox `k` since it was activated, in the order of completion. -/
def receivedMessages (k : Handle) (log : List Event) : List (List UInt8) := log.foldl (receivedStep k) []

/-- Mailbox `b` holds the part of the stream of `k` that is not yet received. -/
structure Stream (k : Handle) (log : List Event) (b : Mailbox) : Prop where
  /-- Nothing is lost, doubled or out of order. -/
  fifo : (receivedMessages k log).flatten ++ bytes b.buffer b.buffer_idx.toNat = (sentMessages k log).flatten
  low : 0 ≤ b.buffer_idx
  high : b.buffer_idx ≤ MAX_MBOX_LENGTH

/-- Every active mailbox is a stream. -/
def Streamed (m : Kernel) : Prop := ∀ k, (m.mailbox k).active = true → Stream k m.log (m.mailbox k)

/-- A step that keeps the streams. -/
def Streams (m m' : Kernel) : Prop := Streamed m → Streamed m'

instance : Std.Refl Streams := ⟨fun _ hs => hs⟩

instance : IsTrans Kernel Streams := ⟨fun _ _ _ h₁ h₂ hs => h₂ (h₁ hs)⟩

variable {m m' : Kernel} {h : Hart} {i : Slot} {k : Handle} {b : Mailbox} {e : Event} {log : List Event}

theorem sentMessages_concat (k : Handle) (log : List Event) (e : Event) :
    sentMessages k (log ++ [e]) = sentStep k (sentMessages k log) e := by
  rw [sentMessages, List.foldl_append]
  rfl

theorem receivedMessages_concat (k : Handle) (log : List Event) (e : Event) :
    receivedMessages k (log ++ [e]) = receivedStep k (receivedMessages k log) e := by
  rw [receivedMessages, List.foldl_append]
  rfl

/-- An event that is not about mailbox `k`. -/
theorem Stream.skip (hs : Stream k log b) (h1 : ∀ msgs, sentStep k msgs e = msgs)
    (h2 : ∀ msgs, receivedStep k msgs e = msgs) :
    Stream k (log ++ [e]) b := by
  refine ⟨?_, hs.low, hs.high⟩
  rw [sentMessages_concat, receivedMessages_concat, h1, h2]
  exact hs.fifo

theorem streams_ambient : Ambient h Streams := by
  refine ⟨fun n hs k hk => ?_, fun _ _ hs => hs, fun _ _ hs => hs,
    fun _ _ hs => hs, fun m e he hs k hk => (hs k hk).skip ?_ ?_⟩
  · rw [n.mailbox] at hk ⊢
    rw [n.log]
    exact hs k hk
  · intro msgs
    cases e <;> first | rfl | cases he
  · intro msgs
    cases e <;> first | rfl | cases he

/-! ### Sends and receives -/

theorem Stream.send (hs : Stream k log b) {msg : ℕ → UInt8} {len : ℤ}
    (hlen : 0 ≤ len) (hfit : b.buffer_idx + len ≤ MAX_MBOX_LENGTH) :
    Stream k (log ++ [.sent k (bytes msg len.toNat)])
      { b with buffer := memcpy b.buffer b.buffer_idx.toNat msg 0 len.toNat, buffer_idx := b.buffer_idx + len } := by
  refine ⟨?_, Int.add_nonneg hs.low hlen, hfit⟩
  rw [sentMessages_concat, receivedMessages_concat]
  simp only [sentStep, receivedStep, if_pos, List.flatten_append, List.flatten_singleton]
  rw [Int.toNat_add hs.low hlen, bytes_memcpy, ← List.append_assoc, hs.fifo]

theorem Stream.recv (hs : Stream k log b) {len : ℤ} (hlen : 0 ≤ len) (hfit : 0 ≤ b.buffer_idx - len) :
    Stream k (log ++ [.received k (bytes b.buffer len.toNat)])
      { b with
        buffer := memcpyWithin b.buffer 0 len.toNat (b.buffer_idx - len).toNat
        buffer_idx := b.buffer_idx - len } := by
  refine ⟨?_, hfit, le_trans (Int.sub_le_self _ hlen) hs.high⟩
  rw [sentMessages_concat, receivedMessages_concat]
  simp only [sentStep, receivedStep, if_pos, List.flatten_append, List.flatten_singleton]
  rw [List.append_assoc, bytes_memcpyWithin, ← Int.toNat_add hlen hfit, Int.add_comm, Int.sub_add_cancel, hs.fifo]

/-- An activated mailbox has an empty stream. -/
theorem Stream.activated (log : List Event) (hb : b.buffer_idx = 0) : Stream k (log ++ [.activated k]) b := by
  refine ⟨?_, by rw [hb], by rw [hb]; decide⟩
  rw [sentMessages_concat, receivedMessages_concat, hb]
  simp [sentStep, receivedStep, bytes]

/-- Mailbox `k` changes, with an event that is only about it. -/
theorem Streamed.change (hs : Streamed m) (hm : m'.mailbox = Function.update m.mailbox k b) (hl : m'.log = m.log ++ [e])
    (h1 : ∀ k' msgs, k' ≠ k → sentStep k' msgs e = msgs) (h2 : ∀ k' msgs, k' ≠ k → receivedStep k' msgs e = msgs)
    (hb : b.active = true → Stream k (m.log ++ [e]) b) : Streamed m' := by
  intro k' hk'
  rw [hm] at hk' ⊢
  rw [hl]
  by_cases hkk : k' = k
  · subst hkk
    rw [Function.update_self] at hk' ⊢
    exact hb hk'
  · rw [Function.update_of_ne hkk] at hk' ⊢
    exact (hs k' hk').skip (fun msgs => h1 k' msgs hkk) fun msgs => h2 k' msgs hkk

/-- The round in which a send or a receive completes. -/
theorem complete_streams {x : SchedM Unit} (hx : Keeps (Noise h none) x) (hs : Streamed m → Streamed { m with
    mailbox := Function.update m.mailbox k b, log := m.log ++ [e] }) : Partial m (do
      setMailbox k b
      record e
      x) fun _ m' => Streams m m' := by
  refine Partial.bind (q := fun _ m₁ => m₁ = { m with mailbox := Function.update m.mailbox k b })
    (Partial.modify rfl) fun _ m₁ h₁ => ?_
  subst h₁
  refine Partial.bind (q := fun _ m₂ => Streams m m₂) (Partial.modify hs) fun _ m₂ h₂ => ?_
  exact (streams_ambient.quiet hx m₂).mono fun _ m₃ h₃ => IsTrans.trans _ _ _ h₂ h₃

theorem do_mbox_send_streams (msg : ℕ → UInt8) (len n : ℤ) : Keeps Streams (do_mbox_send h i k msg len n) := by
  refine Keeps.get_bind fun m => Partial.ite (fun _ => Partial.stop) fun _ => Partial.ite (fun hfit => ?_) fun _ => ?_
  · refine Partial.ite (fun _ => Partial.stop) fun hlen =>
      complete_streams (h := h) (wakeAll_noise.bind fun _ => finish_noise _) fun hs => ?_
    refine hs.change rfl rfl ?_ (fun _ _ _ => rfl) fun hb => (hs k hb).send (Int.not_lt.mp hlen) hfit
    exact fun k' msgs hne => if_neg hne.symm
  · exact streams_ambient.acting (blockIn_noise _) m

theorem do_mbox_recv_streams (len n : ℤ) : Keeps Streams (do_mbox_recv h i k len n) := by
  refine Keeps.get_bind fun m => Partial.ite (fun hfit => ?_) fun _ => ?_
  · refine Partial.ite (fun _ => Partial.stop) fun hlen =>
      complete_streams (h := h) (wakeAll_noise.bind fun _ => finish_noise _) fun hs => ?_
    refine hs.change rfl rfl (fun _ _ _ => rfl) ?_ fun hb => (hs k hb).recv (Int.not_lt.mp hlen) hfit
    exact fun k' msgs hne => if_neg hne.symm
  · exact streams_ambient.acting (blockIn_noise _) m

/-! ### Opening and closing -/

/-- A mailbox that keeps its bytes. -/
theorem setMailbox_streams (hbuf : b.buffer = (m.mailbox k).buffer) (hidx : b.buffer_idx = (m.mailbox k).buffer_idx)
    (hact : b.active = true → (m.mailbox k).active = true) : Partial m (setMailbox k b) fun _ m' => Streams m m' := by
  refine Partial.modify fun hs k' hk' => ?_
  by_cases hkk : k' = k
  · subst hkk
    simp only [Function.update_self] at hk' ⊢
    obtain ⟨h1, h2, h3⟩ := hs k' (hact hk')
    exact ⟨by rw [hbuf, hidx]; exact h1, by rw [hidx]; exact h2, by rw [hidx]; exact h3⟩
  · simp only [Function.update_of_ne hkk] at hk' ⊢
    exact hs k' hk'

theorem do_mbox_close_streams : Keeps Streams (do_mbox_close i k) := by
  refine Keeps.get_bind fun m => Partial.bind (setMailbox_streams ?_ ?_ ?_) fun _ m₁ h₁ => ?_
  · rfl
  · rfl
  · intro hb
    rw [Bool.and_eq_true] at hb
    exact hb.1
  · exact (streams_ambient.quiet (h := 0) (finish_noise _) m₁).mono fun _ m₂ h₂ => IsTrans.trans _ _ _ h₁ h₂

theorem do_mbox_open_streams (name : Name) : Keeps Streams (do_mbox_open i name) := by
  refine Keeps.get_bind fun m => ?_
  split
  · refine Partial.bind (setMailbox_streams ?_ ?_ ?_) fun _ m₁ h₁ => ?_
    · rfl
    · rfl
    · exact id
    exact (streams_ambient.quiet (h := 0) (finish_noise _) m₁).mono fun _ m₂ h₂ => IsTrans.trans _ _ _ h₁ h₂
  · split
    · exact streams_ambient.quiet (h := 0) (finish_noise _) m
    · next k _ =>
      refine Partial.bind (q := fun _ m₁ => m₁ = { m with mailbox := Function.update m.mailbox k { m.mailbox k with
        name := name, active := true, buffer_idx := 0, cite_num := 1, isOpen := true } })
          (Partial.modify rfl) fun _ m₁ h₁ => ?_
      refine Partial.bind (q := fun _ m₂ => m₂ = m₁) (Partial.perform fun _ => rfl) fun _ m₂ h₂ => ?_
      refine Partial.bind (q := fun _ m₃ => m₃ = m₂) (Partial.perform fun _ => rfl) fun _ m₃ h₃ => ?_
      subst h₃ h₂ h₁
      refine Partial.bind (q := fun _ m₄ => Streams m m₄) (Partial.modify fun hs => ?_) fun _ m₄ h₄ => ?_
      · refine hs.change rfl rfl ?_ ?_ fun _ => Stream.activated _ rfl
        · exact fun k' msgs hne => if_neg hne.symm
        · exact fun k' msgs hne => if_neg hne.symm
      · exact (streams_ambient.quiet (h := 0) (finish_noise _) m₄).mono fun _ m₅ h₅ => IsTrans.trans _ _ _ h₄ h₅

theorem streams_boxes : Boxes h Streams :=
  ⟨fun _ name => do_mbox_open_streams name, fun _ _ => do_mbox_close_streams,
    fun _ _ msg len n => do_mbox_send_streams msg len n,
    fun _ _ len n => do_mbox_recv_streams len n⟩

/-! ### Runs -/

variable {s : Machine}

/-- In every run, of both harts and with any calls, the mailboxes are streams. -/
theorem Reach.streamed {P : Kernel → Hart → Action → Prop} (hr : Reach P s) : Streamed s.mem := by
  induction hr with
  | boot hb =>
    intro k hk
    rw [hb.mailbox k] at hk
    cases hk
  | step _ _ hs ih => exact act_keeps streams_ambient streams_boxes _ _ _ pointers _ _ _ hs.2 ih

/-- What has been received and then the buffer is what was sent, each message in one piece, while the
mailbox is active; and the buffer index stays inside the buffer. -/
theorem stream_of_reach (hr : Reach (fun _ _ _ => True) s) (k : Handle) (hk : (s.mem.mailbox k).active = true) :
    let stream := (receivedMessages k s.mem.log).flatten ++
      bytes (s.mem.mailbox k).buffer (s.mem.mailbox k).buffer_idx.toNat
    stream = (sentMessages k s.mem.log).flatten ∧
      (∀ pre msg post, sentMessages k s.mem.log = pre ++ msg :: post → stream = pre.flatten ++ msg ++ post.flatten) ∧
      0 ≤ (s.mem.mailbox k).buffer_idx ∧ (s.mem.mailbox k).buffer_idx ≤ MAX_MBOX_LENGTH := by
  obtain ⟨hfifo, hlow, hhigh⟩ := hr.streamed k hk
  refine ⟨hfifo, fun pre msg post he => ?_, hlow, hhigh⟩
  rw [hfifo, he, List.flatten_append, List.flatten_cons, List.append_assoc]

/-! ### One event for each call -/

/-- Every task goes on where it was to go on. -/
def SameResume (m m' : Kernel) : Prop := m'.resume = m.resume

instance : Std.Refl SameResume := ⟨fun _ => rfl⟩

instance : IsTrans Kernel SameResume := ⟨fun _ _ _ h₁ h₂ => Eq.trans h₂ h₁⟩

theorem resume_queueing : Queueing h SameResume :=
  ⟨fun _ _ _ => Keeps.modify fun _ => rfl,
    Keeps.read fun _ => Keeps.bind (Keeps.modify fun _ => rfl) fun _ => Keeps.pure _,
    fun _ _ => Keeps.bind (Keeps.modify fun _ => rfl) fun _ => (Keeps.perform (Op.unlink _)).bind fun _ =>
      Keeps.bind (Keeps.modify fun _ => rfl) fun _ => Keeps.pure _,
    Keeps.modify fun _ => rfl⟩

/-- A round of a call of task `i` for `len` bytes: it completes and records one event, of `len` bytes, or it
blocks the task, to go on with the call, and records nothing. -/
def Once (i : Slot) (event : List UInt8 → Event) (again : ℤ → Resume) (len : ℤ) (m m' : Kernel) : Prop :=
  (m'.resume i = .user ∧ ∃ msg, (msg.length : ℤ) = len ∧ m'.log = m.log ++ [event msg]) ∨
    ((∃ n, m'.resume i = again n) ∧ m'.log = m.log)

/-- The round in which a call completes. -/
theorem complete_once {q : Queue} {event : List UInt8 → Event}
    {again : ℤ → Resume} {len : ℤ} {msg : ℕ → UInt8} (n : ℤ) (hlen : 0 ≤ len) :
    Partial m (do
      setMailbox k b
      record (event (bytes msg len.toNat))
      wakeAll q
      finish i n) fun _ m' => Once i event again len m m' := by
  refine Partial.modify_bind
    (Partial.modify_bind (Partial.bind (wakeAll_noise (h := 0) (o := none) _) fun _ m₁ hn =>
      Partial.modify ?_))
  exact Or.inl ⟨Function.update_self ..,
    bytes msg len.toNat, by rw [bytes, List.length_map, List.length_range, Int.toNat_of_nonneg hlen], hn.log⟩

/-- The round in which a call blocks. -/
theorem blockIn_once {q : Queue} {event : List UInt8 → Event} {again : ℤ → Resume} {len : ℤ} (n : ℤ) :
    Partial m (blockIn h i q (again n)) fun _ m' => Once i event again len m m' := by
  have hlog : Partial m (blockIn h i q (again n)) fun _ m' => m'.log = m.log :=
    (blockIn_noise _ m).mono fun _ _ hn => hn.log
  have hresume : Partial m (blockIn h i q (again n)) fun _ m' => m'.resume i = again n := by
    have hq : Queueing h SameResume := resume_queueing
    refine Partial.modify_bind ((hq.do_block.bind (fun _ => hq.do_scheduler) _).mono fun _ m' hr => ?_)
    exact (congrFun hr i).trans (Function.update_self ..)
  exact (hresume.and hlog).mono fun _ _ hx => Or.inr ⟨⟨n, hx.1⟩, hx.2⟩

theorem do_mbox_send_once (msg : ℕ → UInt8) (len n : ℤ) :
    Partial m (do_mbox_send h i k msg len n) fun _ m' => Once i (.sent k) (.send k len) len m m' := by
  refine Partial.get_bind (Partial.ite (fun _ => Partial.stop) fun _ =>
    Partial.ite (fun _ => ?_) fun _ => blockIn_once _)
  exact Partial.ite (fun _ => Partial.stop) fun hlen => complete_once n (Int.not_lt.mp hlen)

theorem do_mbox_recv_once (len n : ℤ) :
    Partial m (do_mbox_recv h i k len n) fun _ m' => Once i (.received k) (.recv k len) len m m' := by
  refine Partial.get_bind (Partial.ite (fun _ => ?_) fun _ => blockIn_once _)
  exact Partial.ite (fun _ => Partial.stop) fun hlen => complete_once n (Int.not_lt.mp hlen)

/-- The rounds of a `do_mbox_send` or a `do_mbox_recv` of `len` bytes, the first and those in which the task
goes on with it, record nothing until the call completes, and then exactly one event, of `len` bytes. -/
theorem mbox_calls_once (hi : m.current_running h = some i)
    (halive : (m.pcb i).status ≠ .TASK_EXITED) (k : Handle) (len : ℤ) :
    (∀ msg, Partial m (act h (.call (.do_mbox_send k msg len))) fun _ m' => Once i (.sent k) (.send k len) len m m') ∧
    (∀ n msg, m.resume i = .send k len n → Partial m (act h (.resume msg)) fun _ m' =>
      Once i (.sent k) (.send k len) len m m') ∧
    Partial m (act h (.call (.do_mbox_recv k len))) (fun _ m' => Once i (.received k) (.recv k len) len m m') ∧
    ∀ n msg, m.resume i = .recv k len n → Partial m (act h (.resume msg)) fun _ m' =>
    Once i (.received k) (.recv k len) len m m' := by
  refine ⟨fun msg => Partial.get_bind ?_, fun n msg hr => Partial.get_bind ?_,
    Partial.get_bind ?_, fun n msg hr => Partial.get_bind ?_⟩
  · simp only [hi, if_neg halive]
    exact do_mbox_send_once _ _ _
  · simp only [hi, hr]
    exact do_mbox_send_once _ _ _
  · simp only [hi, if_neg halive]
    exact do_mbox_recv_once _ _
  · simp only [hi, hr]
    exact do_mbox_recv_once _ _

/-- Three bytes are sent and two of them received. -/
theorem stream_three_bytes : ∃ s : Machine, sentMessages ⟨0, by decide⟩ s.mem.log = [[1, 2, 3]] ∧
    (receivedMessages ⟨0, by decide⟩ s.mem.log).flatten ++
      bytes (s.mem.mailbox ⟨0, by decide⟩).buffer (s.mem.mailbox ⟨0, by decide⟩).buffer_idx.toNat =
        (sentMessages ⟨0, by decide⟩ s.mem.log).flatten := by
  have hrun :
      (steps [(0, .call (.do_taskset_exec ⟨[], by decide⟩ 3)),
        (0, .timer), (0, .call (.do_mbox_open ⟨[], by decide⟩)),
      (0, .call (.do_mbox_send ⟨0, by decide⟩ (fun n => UInt8.ofNat (n + 1)) 3)),
      (0, .call (.do_mbox_recv ⟨0, by decide⟩ 2))] .start).map
      (fun s => decide ((s.mem.mailbox ⟨0, by decide⟩).active = true ∧
        sentMessages ⟨0, by decide⟩ s.mem.log = [[1, 2, 3]])) = some true := by
    decide +kernel
  obtain ⟨s, he, hs⟩ := Option.map_eq_some_iff.mp hrun
  obtain ⟨hk, hsent⟩ := of_decide_eq_true hs
  exact ⟨s, hsent, (stream_of_reach ((Reach.boot boot_start).steps _ (fun _ _ _ => trivial) he) _ hk).1⟩

end OsLab.Sched
