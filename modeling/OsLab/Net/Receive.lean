import Mathlib.Data.List.Induction
import OsLab.Net.Model

/-!
# The receive ring

The packets that wait for a reader are in the descriptors behind the tail, up to the head. A call of
`e1000_poll` works out the descriptor to read when it enters its loop, and still has it when it wakes
up, while other calls may have moved the tail: it then sleeps on a descriptor that is not the next one,
or takes a packet out of turn. When a packet is only ever taken while no other call sleeps in the
driver, packets are delivered one by one in the order of their arrival (`rxLawful_of_run`), provided
that `mymemcpy` comes back: it ends only for lengths that are multiples of eight.
-/

namespace OsLab.Net

open Lib

variable {s t : Nic} {e : Event} {r : Receiver} {es : List Event}

/-- The packet in a descriptor. -/
def RxDesc.packet (d : RxDesc) : List UInt8 := bytes d.buffer d.length

/-- The packets that have arrived and have not been taken. -/
def undelivered (s : Nic) : List (List UInt8) := arc (fun i => (s.rx_desc_array i).packet) (s.RDT + 1) s.RDH

/-- The packets that `e1000_poll` is after. -/
def accepted (p : List UInt8) : Bool := p.getD 14 0 = 43

/-- The wanted packets are delivered in order and once each, nobody sleeps on another descriptor than
the next one to be read, and the tail advances. -/
structure RxLawful (s : Nic) : Prop where
  order : ∃ taken, s.arrived = taken ++ undelivered s ∧ s.delivered = taken.filter accepted
  next : ∀ r ∈ s.recv_block_queue, undelivered s ≠ [] → r.index = some (s.RDT + 1)
  tail : ∀ w ∈ s.tails, w.2 = w.1 + 1
  back : s.stuck = false

/-- The call of `e1000_poll` that goes on in a step. -/
def Event.receiver (s : Nic) : Event → Option Receiver
  | .poll => some ⟨none, 0⟩
  | .go => s.running
  | .resumeReceiver n => s.receivers[n]?
  | _ => none

/-- The other calls of `e1000_poll` that are under way. -/
def Event.others (s : Nic) : Event → List Receiver
  | .resumeReceiver n => s.recv_block_queue ++ s.receivers.eraseIdx n
  | _ => s.recv_block_queue ++ s.receivers

/-- A call takes a packet only while no other call is under way, and wanted packets have a length that
is a multiple of eight. -/
structure RecvOk (s : Nic) (e : Event) : Prop where
  alone : ∀ r, e.receiver s = some r → (s.rx_desc_array (r.index.getD (s.RDT + 1))).dd = true → e.others s = []
  whole : ∀ p : Arrival, e = .receive p → accepted p.1 = true → p.1.length % 8 = 0

/-- What a filled descriptor holds. -/
structure Filled (d : RxDesc) : Prop where
  eop : d.eop = true
  header : 14 < d.length
  whole : d.buffer 14 = 43 → d.length % 8 = 0

/-- A call that has the right descriptor. -/
def Receiver.Ready (s : Nic) (r : Receiver) : Prop := r.poll_len = 0 ∧ r.index.getD (s.RDT + 1) = s.RDT + 1

/-- What holds as long as calls are alone. -/
structure RxInv (s : Nic) : Prop where
  order : ∃ taken, s.arrived = taken ++ undelivered s ∧ s.delivered = taken.filter accepted
  dd : ∀ i, (s.rx_desc_array i).dd = true ↔ InArc (s.RDT + 1) s.RDH i
  filled : ∀ i, InArc (s.RDT + 1) s.RDH i → Filled (s.rx_desc_array i)
  asleep : ∀ r ∈ s.recv_block_queue, r.poll_len = 0 ∧ r.index = some (s.RDT + 1)
  woken : ∀ r ∈ s.receivers, r.poll_len = 0 ∧ r.index = some (s.RDT + 1)
  running : ∀ r, s.running = some r → r.Ready s
  tail : ∀ w ∈ s.tails, w.2 = w.1 + 1
  back : s.stuck = false

theorem RxInv.lawful (hs : RxInv s) : RxLawful s := ⟨hs.order, fun r hr _ => (hs.asleep r hr).2, hs.tail, hs.back⟩

theorem RxInv.init : RxInv e1000_init := by
  refine ⟨⟨[], ?_, rfl⟩, fun i => ?_, fun i hi => ?_, nofun, nofun, nofun, nofun, rfl⟩
  · rw [undelivered]
    exact arc_self.symm
  · simp only [e1000_init, Bool.false_eq_true, false_iff]
    exact Nat.not_lt_zero _
  · exact absurd hi (Nat.not_lt_zero _)

/-- Byte 14 of the packet in a descriptor. -/
theorem accepted_iff {d : RxDesc} (hd : 14 < d.length) : accepted d.packet = true ↔ d.buffer 14 = 43 := by
  have : d.packet.getD 14 0 = d.buffer 14 := by
    rw [RxDesc.packet, bytes, List.getD_eq_getElem?_getD, List.getElem?_map, List.getElem?_range hd]
    rfl
  rw [accepted, this, decide_eq_true_eq]

/-! ### Taking a packet -/

section Take

variable (hs : RxInv s) (hdd : (s.rx_desc_array (s.RDT + 1)).dd = true)

include hs hdd

theorem RxInv.undelivered_eq : s.RDT + 1 ≠ s.RDH ∧
    undelivered s = (s.rx_desc_array (s.RDT + 1)).packet :: undelivered (recycle (s.RDT + 1) s) := by
  have hin := (hs.dd _).mp hdd
  have hne : s.RDT + 1 ≠ s.RDH := by
    intro h
    rw [InArc, h, sub_self] at hin
    exact absurd hin (lt_irrefl _)
  refine ⟨hne, ?_⟩
  have hsame : (fun i => ((recycle (s.RDT + 1) s).rx_desc_array i).packet) =
    Function.update (fun i => (s.rx_desc_array i).packet) (s.RDT + 1)
      (RxDesc.packet { s.rx_desc_array (s.RDT + 1) with length := 0, dd := false, eop := false }) := by
    funext i
    by_cases hi : i = s.RDT + 1
    · subst hi
      simp [recycle]
    · simp [recycle, hi]
  rw [undelivered, arc_pop hne, undelivered, hsame]
  congr 1
  exact (arc_update not_inArc_pop).symm

/-- The descriptor is given back to the device, nobody else being under way; `o` goes on with a
call that has yet to look for its descriptor. -/
theorem RxInv.recycle (hq : s.recv_block_queue = [])
    (hw : s.receivers = []) {o : Option Receiver} {d : List (List UInt8)}
    (hr : ∀ r, o = some r → r.poll_len = 0 ∧ r.index = none)
    (hdel : d = if accepted (s.rx_desc_array (s.RDT + 1)).packet then s.delivered ++
      [(s.rx_desc_array (s.RDT + 1)).packet]
      else s.delivered) : RxInv { recycle (s.RDT + 1) s with running := o, delivered := d } := by
  obtain ⟨hne, hund⟩ := hs.undelivered_eq hdd
  obtain ⟨taken, harr, hold⟩ := hs.order
  refine ⟨⟨taken ++ [(s.rx_desc_array (s.RDT + 1)).packet], ?_, ?_⟩,
    fun i => ?_, fun i hi => ?_, ?_, ?_, fun r hr' => ?_, ?_, hs.back⟩
  · show s.arrived = _
    rw [harr, hund, List.append_assoc]
    rfl
  · show d = _
    rw [hdel, List.filter_append, hold]
    split
    · next h => rw [List.filter_cons_of_pos h, List.filter_nil]
    · next h => rw [List.filter_cons_of_neg h, List.filter_nil, List.append_nil]
  · by_cases hi : i = s.RDT + 1
    · subst hi
      simp only [Net.recycle, Function.update_self, Bool.false_eq_true, false_iff]
      exact not_inArc_pop
    · have hpop := inArc_pop (i := i) hne
      simp only [Net.recycle, Function.update_of_ne hi, hs.dd]
      rw [hpop]
      simp [hi]
  · have hi' : i ≠ s.RDT + 1 := by
      rintro rfl
      exact not_inArc_pop hi
    simp only [Net.recycle, Function.update_of_ne hi']
    exact hs.filled i ((inArc_pop hne).mpr (Or.inr hi))
  · show ∀ r ∈ s.recv_block_queue, _
    rw [hq]
    nofun
  · show ∀ r ∈ s.receivers, _
    rw [hw]
    nofun
  · obtain ⟨hlen, hidx⟩ := hr r hr'
    exact ⟨hlen, by rw [hidx]; rfl⟩
  · intro w hw'
    rcases List.mem_append.mp hw' with hw' | hw'
    · exact hs.tail w hw'
    · rw [List.mem_singleton.mp hw']

end Take

/-- A round of a call that has the right descriptor. -/
theorem RxInv.round (hs : RxInv s) (hr : r.Ready s)
    (halone : (s.rx_desc_array (s.RDT + 1)).dd = true → s.recv_block_queue = [] ∧ s.receivers = []) :
    RxInv (pollRound r s) := by
  obtain ⟨hlen, hidx⟩ := hr
  rw [pollRound, hidx]
  split
  · refine ⟨hs.order, hs.dd, hs.filled, fun r' hr' => ?_, hs.woken, nofun, hs.tail, hs.back⟩
    rcases List.mem_append.mp hr' with hr' | hr'
    · exact hs.asleep r' hr'
    · rw [List.mem_singleton.mp hr']
      exact ⟨hlen, rfl⟩
  · next hdd =>
    have hdd : (s.rx_desc_array (s.RDT + 1)).dd = true := Bool.eq_true_of_not_eq_false hdd
    have hfilled := hs.filled _ ((hs.dd _).mp hdd)
    obtain ⟨hq, hw⟩ := halone hdd
    split
    · next hno =>
      refine hs.recycle hdd hq hw (d := s.delivered) ?_ ?_
      · rintro _ ⟨⟩
        exact ⟨hlen, rfl⟩
      · rw [if_neg]
        exact fun h => hno ((accepted_iff hfilled.header).mp h)
    · next hyes =>
      have hyes := not_not.mp hyes
      simp only [hlen, Nat.zero_add, hfilled.whole hyes, hfilled.eop, ne_eq, not_true_eq_false, if_false, if_true]
      refine hs.recycle hdd hq hw (o := none) nofun ?_
      rw [if_pos ((accepted_iff hfilled.header).mpr hyes)]
      rfl

/-- A packet is what its bytes are. -/
theorem bytes_getD (p : List UInt8) : bytes (fun i => p.getD i 0) p.length = p := by
  refine List.ext_getElem (by simp [bytes]) fun i h₁ h₂ => ?_
  simp only [bytes, List.getElem_map, List.getElem_range]
  rw [List.getD_eq_getElem?_getD, List.getElem?_eq_getElem h₂, Option.getD_some]

/-- The device fills the descriptor at the head. -/
theorem RxInv.receive (hs : RxInv s) {p : Arrival} (hp : accepted p.1 = true → p.1.length % 8 = 0)
    (ht : receivePacket p s = some t) : RxInv t := by
  rw [receivePacket, Option.ite_none_left_eq_some] at ht
  obtain ⟨hne, ht⟩ := ht
  have hpush : s.RDH + 1 ≠ s.RDT + 1 := fun h => hne (add_right_cancel h)
  obtain ⟨taken, harr, hdel⟩ := hs.order
  generalize hd : RxDesc.mk p.1.length true true _ = d at ht
  have hpacket : d.packet = p.1 := by
    have h := bytes_memcpy (s.rx_desc_array s.RDH).buffer (fun i => p.1.getD i 0) 0 p.1.length
    rw [Nat.zero_add] at h
    rw [← hd, RxDesc.packet]
    exact h.trans (bytes_getD p.1)
  have hddt : d.dd = true := by rw [← hd]
  have hfilled : Filled d := by
    have hlen : 14 < d.length := by rw [← hd]; exact p.2.1
    refine ⟨by rw [← hd], hlen, fun h => ?_⟩
    have hwhole := hp (by rw [← hpacket]; exact (accepted_iff hlen).mpr h)
    rwa [← hd]
  obtain rfl := Option.some.inj ht
  have hsame : (fun i => (Function.update s.rx_desc_array s.RDH d i).packet) =
      Function.update (fun i => (s.rx_desc_array i).packet) s.RDH d.packet := by
    funext i
    by_cases hi : i = s.RDH
    · subst hi
      simp
    · simp [hi]
  refine ⟨⟨taken, ?_, hdel⟩, fun i => ?_, fun i hi => ?_, hs.asleep, hs.woken, hs.running, hs.tail, hs.back⟩
  · simp only [undelivered, hsame]
    rw [arc_push hpush, arc_update not_inArc_right, Function.update_self, hpacket, harr, ← List.append_assoc]
    rfl
  · rw [inArc_push hpush]
    by_cases hi : i = s.RDH
    · subst hi
      simp [hddt]
    · simpa [hi] using hs.dd i
  · by_cases hih : i = s.RDH
    · subst hih
      simpa using hfilled
    · rw [inArc_push hpush] at hi
      simpa [hih] using hs.filled i (hi.resolve_right hih)

/-! ### Runs -/

/-- The receive side is the same. -/
structure SameRx (s t : Nic) : Prop where
  rx_desc_array : t.rx_desc_array = s.rx_desc_array
  RDH : t.RDH = s.RDH
  RDT : t.RDT = s.RDT
  recv_block_queue : t.recv_block_queue = s.recv_block_queue
  receivers : t.receivers = s.receivers
  running : t.running = s.running
  arrived : t.arrived = s.arrived
  delivered : t.delivered = s.delivered
  tails : t.tails = s.tails
  stuck : t.stuck = s.stuck

theorem RxInv.same (hs : RxInv s) (h : SameRx s t) : RxInv t := by
  refine ⟨?_, ?_, ?_, ?_, ?_, ?_, ?_, ?_⟩
  · rw [h.arrived, h.delivered, undelivered, h.rx_desc_array, h.RDH, h.RDT]
    exact hs.order
  · rw [h.rx_desc_array, h.RDH, h.RDT]
    exact hs.dd
  · rw [h.rx_desc_array, h.RDH, h.RDT]
    exact hs.filled
  · rw [h.recv_block_queue, h.RDT]
    exact hs.asleep
  · rw [h.receivers, h.RDT]
    exact hs.woken
  · simp only [Receiver.Ready]
    rw [h.running, h.RDT]
    exact hs.running
  · rw [h.tails]
    exact hs.tail
  · rw [h.stuck]
    exact hs.back

theorem transmitRound_same (c : Sender) (s : Nic) : SameRx s (transmitRound c s) := by
  simp only [transmitRound]
  split
  all_goals exact ⟨rfl, rfl, rfl, rfl, rfl, rfl, rfl, rfl, rfl, rfl⟩

/-- One step. -/
theorem RxInv.step (hs : RxInv s) (hok : RecvOk s e) (ht : step s e = some t) : RxInv t := by
  cases e with
  | transmit p length =>
    simp only [Net.step, Option.ite_none_right_eq_some, Option.some.injEq] at ht
    obtain ⟨-, rfl⟩ := ht
    exact hs.same (transmitRound_same _ s)
  | poll =>
    simp only [Net.step, Option.ite_none_right_eq_some, Option.some.injEq] at ht
    obtain ⟨-, rfl⟩ := ht
    exact hs.round ⟨rfl, rfl⟩ fun hdd => List.append_eq_nil_iff.mp (hok.alone ⟨none, 0⟩ rfl hdd)
  | go =>
    simp only [Net.step, Option.ite_none_left_eq_some, Option.map_eq_some_iff] at ht
    obtain ⟨-, r, hr, rfl⟩ := ht
    have hready := hs.running r hr
    refine hs.round hready fun hdd => List.append_eq_nil_iff.mp (hok.alone r hr ?_)
    rw [hready.2]
    exact hdd
  | resumeSender n =>
    simp only [Net.step, Option.ite_none_right_eq_some, Option.map_eq_some_iff] at ht
    obtain ⟨-, c, -, rfl⟩ := ht
    have hsame : SameRx s { s with senders := s.senders.eraseIdx n } :=
      ⟨rfl, rfl, rfl, rfl, rfl, rfl, rfl, rfl, rfl, rfl⟩
    exact (hs.same hsame).same (transmitRound_same c _)
  | resumeReceiver n =>
    simp only [Net.step, Option.ite_none_right_eq_some, Option.map_eq_some_iff] at ht
    obtain ⟨-, r, hr, rfl⟩ := ht
    obtain ⟨hlen, hidx⟩ := hs.woken r (List.mem_of_getElem? hr)
    have hs' : RxInv { s with receivers := s.receivers.eraseIdx n } :=
      ⟨hs.order, hs.dd, hs.filled, hs.asleep,
        fun r hr => hs.woken r (List.mem_of_mem_eraseIdx hr), hs.running, hs.tail, hs.back⟩
    refine hs'.round ⟨hlen, by rw [hidx]; rfl⟩ fun hdd => List.append_eq_nil_iff.mp (hok.alone r hr ?_)
    rw [hidx]
    exact hdd
  | irq icr_txqe icr_rxdmt0 =>
    simp only [Net.step, Option.ite_none_right_eq_some, Option.some.injEq] at ht
    obtain ⟨-, rfl⟩ := ht
    have htx : ∀ u, u = (if icr_txqe && s.txqe then
        { s with senders := s.senders ++ s.send_block_queue, send_block_queue := [], txqe := false } else s) →
            RxInv u := by
      rintro _ rfl
      split
      · exact hs.same ⟨rfl, rfl, rfl, rfl, rfl, rfl, rfl, rfl, rfl, rfl⟩
      · exact hs
    have hu := htx _ rfl
    simp only [net_handle_irq]
    split
    · refine ⟨hu.order, hu.dd, hu.filled, nofun, fun r hr => ?_, hu.running, hu.tail, hu.back⟩
      rcases List.mem_append.mp hr with hr | hr
      · exact hu.woken r hr
      · exact hu.asleep r hr
    · exact hu
  | send =>
    simp only [Net.step, sendPacket, Option.ite_none_left_eq_some, Option.some.injEq] at ht
    obtain ⟨-, rfl⟩ := ht
    exact hs.same ⟨rfl, rfl, rfl, rfl, rfl, rfl, rfl, rfl, rfl, rfl⟩
  | receive p => exact hs.receive (hok.whole p rfl) ht

/-- Every step of the run meets the condition. -/
def RecvOkThroughout (es : List Event) : Prop :=
  ∀ pre e post, es = pre ++ e :: post → ∀ t, run pre e1000_init = some t → RecvOk t e

/-- Packets are received in order in every run in which calls take packets alone. -/
theorem rxLawful_of_run (es : List Event) (hok : RecvOkThroughout es) (hrun : run es e1000_init = some s) :
    RxLawful s := by
  refine RxInv.lawful ?_
  induction es using List.reverseRecOn generalizing s with
  | nil =>
    obtain rfl := Option.some.inj hrun
    exact RxInv.init
  | append_singleton es e ih =>
    rw [run_concat, Option.bind_eq_some_iff] at hrun
    obtain ⟨t, ht, hs⟩ := hrun
    have hok' : RecvOkThroughout es := by
      intro pre e' post he
      exact hok pre e' (post ++ [e]) (by rw [he, List.append_assoc]; rfl)
    exact (ih hok' ht).step (hok es e [] rfl t ht) hs

/-- A packet of sixteen bytes that `e1000_poll` is after. -/
def wanted : Arrival := ⟨List.replicate 16 43, by decide, by decide⟩

/-- A packet of sixteen bytes that it is not after. -/
def unwanted : Arrival := ⟨List.replicate 16 0, by decide, by decide⟩

/-- Whether a step meets the condition. -/
def recvOk (s : Nic) (e : Event) : Bool :=
  ((e.receiver s).all fun r => !(s.rx_desc_array (r.index.getD (s.RDT + 1))).dd || (e.others s).isEmpty) &&
    (match e with
      | .receive p => !accepted p.1 || p.1.length % 8 == 0
      | _ => true)

theorem recvOk_of (s : Nic) (e : Event) (h : recvOk s e = true) : RecvOk s e := by
  unfold recvOk at h
  rw [Bool.and_eq_true] at h
  refine ⟨fun r hr hdd => ?_, fun p hp hacc => ?_⟩
  · have halone := h.1
    rw [hr, Option.all_some, hdd, Bool.not_true, Bool.false_or] at halone
    exact List.isEmpty_iff.mp halone
  · subst hp
    have hwhole := h.2
    dsimp only at hwhole
    rw [hacc] at hwhole
    simpa using hwhole

/-- A call sleeps, three packets arrive, and the call and a second one read the two that are wanted. -/
def threePackets : List Event :=
  [.poll, .receive wanted, .receive unwanted, .receive wanted, .irq false true, .resumeReceiver 0, .poll, .go]

theorem rxLawful_threePackets :
    ∃ s, run threePackets e1000_init = some s ∧ s.delivered = [wanted.1, wanted.1] ∧ RxLawful s := by
  obtain ⟨s, hs, hd⟩ := Option.map_eq_some_iff.mp
    (show (run threePackets e1000_init).map (fun s => s.delivered) = some [wanted.1, wanted.1] by decide +kernel)
  exact ⟨s, hs, hd, rxLawful_of_run _ (of_passes recvOk_of (by decide +kernel)) hs⟩

/-- Two calls sleep, two packets arrive and both calls are woken: the second sleeps again, on the
descriptor that the first has read, while the second packet is in the next one. -/
theorem rxLawful_two_readers_fail : ¬ ∀ es s, run es e1000_init = some s → RxLawful s := by
  intro hall
  have hrun :
    (run [.poll, .poll, .receive wanted, .receive wanted,
      .irq false true, .resumeReceiver 0, .resumeReceiver 0] e1000_init).map
      (fun s => (s.recv_block_queue.map fun r => r.index, s.RDT, undelivered s)) =
      some ([some 0], 0, [wanted.1]) := by decide +kernel
  obtain ⟨s, hs, he⟩ := Option.map_eq_some_iff.mp hrun
  obtain ⟨hq, he⟩ := Prod.mk.inj he
  obtain ⟨htail, hund⟩ := Prod.mk.inj he
  obtain ⟨r, hr, hidx⟩ := List.map_eq_singleton_iff.mp hq
  have := (hall _ s hs).next r (by rw [hr]; exact List.mem_singleton_self r) (by rw [hund]; exact List.cons_ne_nil _ _)
  rw [hidx, htail] at this
  exact absurd this (by decide)

end OsLab.Net
