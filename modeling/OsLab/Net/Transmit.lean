import Mathlib.Data.List.Induction
import OsLab.Net.Model

/-!
# The transmit ring

`e1000_transmit` takes the descriptor at the tail when its DD bit is set, and the DD bits of the ring
are all set at the start. So it fills the ring to the last descriptor; but a tail that has caught up
with the head means an empty ring to the device, which then sends none of the packets in it. As long as
every packet finds two free descriptors, no call ever blocks and the packets are sent one by one in the
order in which the calls return; the first that finds only one breaks this (`txLawful_iff`).
-/

namespace OsLab.Net

open Lib

variable {s t : Nic} {e : Event} {c : Sender} {es : List Event}

/-- The packets that the device has yet to send. -/
def outstanding (s : Nic) : List Packet := arc (fun i => (s.tx_desc_array i).packet) s.TDH s.TDT

/-- The packets that are handed to the device are sent once each and in order, none is lost by
overwriting its descriptor, and one descriptor of the ring is always left. -/
structure TxLawful (s : Nic) : Prop where
  order : s.returned = s.sent ++ outstanding s
  intact : s.overwritten = false
  bound : s.returned.length ≤ s.sent.length + (TXDESCS - 1)

/-- A packet is handed to the device only while fewer than `TXDESCS - 1` are outstanding. -/
def Room (s : Nic) : Event → Prop
  | .transmit .. => s.TDT + 1 ≠ s.TDH
  | _ => True

/-- What holds as long as there is room: free descriptors have their DD bit set, and nobody waits. -/
structure TxInv (s : Nic) : Prop extends TxLawful s where
  free : ∀ i, ¬ InArc s.TDH s.TDT i → (s.tx_desc_array i).dd = true
  nobody : s.send_block_queue = [] ∧ s.senders = []

/-- The fields of the transmit side are the same. -/
structure SameTx (s t : Nic) : Prop where
  tx_desc_array : t.tx_desc_array = s.tx_desc_array
  TDH : t.TDH = s.TDH
  TDT : t.TDT = s.TDT
  send_block_queue : t.send_block_queue = s.send_block_queue
  senders : t.senders = s.senders
  returned : t.returned = s.returned
  sent : t.sent = s.sent
  overwritten : t.overwritten = s.overwritten

theorem TxInv.same (hs : TxInv s) (h : SameTx s t) : TxInv t := by
  refine ⟨⟨?_, ?_, ?_⟩, ?_, ?_⟩
  · rw [h.returned, h.sent, outstanding, h.tx_desc_array, h.TDH, h.TDT]
    exact hs.order
  · rw [h.overwritten]
    exact hs.intact
  · rw [h.returned, h.sent]
    exact hs.bound
  · rw [h.tx_desc_array, h.TDH, h.TDT]
    exact hs.free
  · rw [h.send_block_queue, h.senders]
    exact hs.nobody

theorem pollRound_same (r : Receiver) (s : Nic) : SameTx s (pollRound r s) := by
  simp only [pollRound]
  repeat' split
  all_goals exact ⟨rfl, rfl, rfl, rfl, rfl, rfl, rfl, rfl⟩

theorem length_outstanding (s : Nic) : (outstanding s).length = (s.TDT - s.TDH).val := length_arc ..

theorem TxInv.init : TxInv e1000_init :=
  ⟨⟨by rw [outstanding, e1000_init, arc_self]; rfl, rfl, by decide⟩, fun _ _ => rfl, rfl, rfl⟩

/-- The packet of a call, in its descriptor. -/
theorem packet_memcpy (c : Sender) (b : ℕ → UInt8) (dd : Bool) :
    let transmit_len := if c.length > TX_PKT_SIZE then TX_PKT_SIZE else c.length
    TxDesc.packet ⟨transmit_len, !decide (c.length > TX_PKT_SIZE), dd, memcpy b 0 c.txpacket 0 transmit_len⟩ =
        c.packet := by
  have hbytes : ∀ len, bytes (memcpy b 0 c.txpacket 0 len) len = bytes c.txpacket len := by
    intro len
    have := bytes_memcpy b c.txpacket 0 len
    rw [Nat.zero_add] at this
    exact this
  simp only [TxDesc.packet, Sender.packet, hbytes]
  split
  · next h => simp [min_eq_right h.le, h]
  · next h => simp [not_lt.mp h]

/-- The descriptor at the tail is free, so a call takes it. -/
theorem TxInv.transmit_eq (hs : TxInv s) (p : ℕ → UInt8) (length : ℕ) :
    let t := e1000_transmit p length s
    (∃ d : TxDesc, t.tx_desc_array = Function.update s.tx_desc_array s.TDT d ∧
      d.packet = Sender.packet ⟨s.TDT, p, length⟩) ∧
      t.TDH = s.TDH ∧ t.TDT = s.TDT + 1 ∧
      t.returned = s.returned ++ [Sender.packet ⟨s.TDT, p, length⟩] ∧ t.sent = s.sent ∧
      t.overwritten = false ∧ t.send_block_queue = [] ∧ t.senders = [] := by
  have hdd := hs.free s.TDT not_inArc_right
  simp only [e1000_transmit, transmitRound, hdd, Bool.true_eq_false, if_false, true_and]
  refine ⟨⟨_, rfl, packet_memcpy ⟨s.TDT, p, length⟩ _ _⟩, ?_, hs.nobody⟩
  rw [hs.intact, Bool.false_or, decide_eq_false_iff_not]
  exact not_inArc_right

theorem TxInv.transmit (hs : TxInv s) (p : ℕ → UInt8) (length : ℕ) (hroom : s.TDT + 1 ≠ s.TDH) :
    TxInv (e1000_transmit p length s) := by
  obtain ⟨⟨d, hd, hp⟩, hh, ht, hret, hsent, hover, hnobody⟩ := hs.transmit_eq p length
  have hlen : (outstanding s).length + 1 ≤ TXDESCS - 1 := by
    rw [length_outstanding, ← val_push hroom]
    exact Nat.le_of_lt_succ (Fin.isLt _)
  have horder : (e1000_transmit p length s).returned =
      (e1000_transmit p length s).sent ++ outstanding (e1000_transmit p length s) := by
    have hsame : (fun i => (Function.update s.tx_desc_array s.TDT d i).packet) =
        Function.update (fun i => (s.tx_desc_array i).packet) s.TDT d.packet := by
      funext i
      by_cases hi : i = s.TDT
      · subst hi
        simp
      · simp [hi]
    rw [hret, hsent, outstanding, hd, hh, ht, hsame, arc_push hroom,
      arc_update not_inArc_right, Function.update_self, hp,
      ← List.append_assoc]
    congr 1
    exact hs.order
  refine ⟨⟨horder, hover, ?_⟩, fun i hi => ?_, hnobody⟩
  · rw [hret, hsent, hs.order, List.length_append, List.length_append, List.length_singleton]
    omega
  · rw [hh, ht, inArc_push hroom, not_or] at hi
    rw [hd, Function.update_of_ne hi.2]
    exact hs.free i hi.1

/-- The device sends the packet at the head. -/
theorem TxInv.send (hs : TxInv s) (ht : sendPacket s = some t) : TxInv t := by
  rw [sendPacket, Option.ite_none_left_eq_some] at ht
  obtain ⟨hne, ht⟩ := ht
  obtain rfl := Option.some.inj ht
  have hsame : (fun i => (Function.update s.tx_desc_array s.TDH { s.tx_desc_array s.TDH with dd := true } i).packet) =
      fun i => (s.tx_desc_array i).packet := by
    funext i
    by_cases hi : i = s.TDH
    · subst hi
      simp [TxDesc.packet]
    · simp [hi]
  have hpop : outstanding s = (s.tx_desc_array s.TDH).packet :: arc (fun i => (s.tx_desc_array i).packet)
      (s.TDH + 1) s.TDT :=
    arc_pop hne
  have horder : s.returned = (s.sent ++ [(s.tx_desc_array s.TDH).packet]) ++
      arc (fun i => (s.tx_desc_array i).packet) (s.TDH + 1) s.TDT := by
    rw [hs.order, hpop, List.append_assoc]
    rfl
  refine ⟨⟨?_, hs.intact, ?_⟩, fun i hi => ?_, hs.nobody⟩
  · simp only [outstanding, hsame]
    exact horder
  · have := hs.bound
    simp only [List.length_append, List.length_singleton]
    omega
  · by_cases hih : i = s.TDH
    · subst hih
      simp
    · have hi' : ¬ InArc s.TDH s.TDT i := by
        rw [inArc_pop hne]
        exact fun h => h.elim hih hi
      simpa [hih] using hs.free i hi'

/-- One step with room. -/
theorem TxInv.step (hs : TxInv s) (hroom : Room s e) (ht : step s e = some t) : TxInv t := by
  cases e with
  | transmit p length =>
    simp only [Net.step, Option.ite_none_right_eq_some, Option.some.injEq] at ht
    obtain ⟨-, rfl⟩ := ht
    exact hs.transmit p length hroom
  | poll =>
    simp only [Net.step, Option.ite_none_right_eq_some, Option.some.injEq] at ht
    obtain ⟨-, rfl⟩ := ht
    exact hs.same (pollRound_same _ s)
  | go =>
    simp only [Net.step, Option.ite_none_left_eq_some, Option.map_eq_some_iff] at ht
    obtain ⟨-, r, -, rfl⟩ := ht
    exact hs.same (pollRound_same r s)
  | resumeSender n =>
    simp only [Net.step, Option.ite_none_right_eq_some, Option.map_eq_some_iff, hs.nobody.2] at ht
    obtain ⟨-, c, hc, -⟩ := ht
    cases hc
  | resumeReceiver n =>
    simp only [Net.step, Option.ite_none_right_eq_some, Option.map_eq_some_iff] at ht
    obtain ⟨-, r, -, rfl⟩ := ht
    have hsame : SameTx s { s with receivers := s.receivers.eraseIdx n } := ⟨rfl, rfl, rfl, rfl, rfl, rfl, rfl, rfl⟩
    exact (hs.same hsame).same (pollRound_same r _)
  | irq icr_txqe icr_rxdmt0 =>
    simp only [Net.step, Option.ite_none_right_eq_some, Option.some.injEq] at ht
    obtain ⟨-, rfl⟩ := ht
    simp only [net_handle_irq]
    refine hs.same ⟨?_, ?_, ?_, ?_, ?_, ?_, ?_, ?_⟩ <;> (repeat' split) <;> simp [hs.nobody]
  | send => exact hs.send ht
  | receive p =>
    simp only [Net.step, receivePacket, Option.ite_none_left_eq_some, Option.some.injEq] at ht
    obtain ⟨-, rfl⟩ := ht
    exact hs.same ⟨rfl, rfl, rfl, rfl, rfl, rfl, rfl, rfl⟩

/-! ### Runs -/

/-- The property holds in every state of the run. -/
def TxLawfulThroughout (es : List Event) : Prop :=
  ∀ pre post, es = pre ++ post → ∀ t, run pre e1000_init = some t → TxLawful t

/-- Every packet of the run finds room. -/
def RoomThroughout (es : List Event) : Prop :=
  ∀ pre e post, es = pre ++ e :: post → ∀ t, run pre e1000_init = some t → Room t e

theorem RoomThroughout.inv (hroom : RoomThroughout es) (hs : run es e1000_init = some s) : TxInv s := by
  induction es using List.reverseRecOn generalizing s with
  | nil =>
    obtain rfl := Option.some.inj hs
    exact TxInv.init
  | append_singleton es e ih =>
    rw [run_concat, Option.bind_eq_some_iff] at hs
    obtain ⟨t, ht, hs⟩ := hs
    have hroom' : RoomThroughout es := by
      intro pre e' post he
      exact hroom pre e' (post ++ [e]) (by rw [he, List.append_assoc]; rfl)
    exact (ih hroom' ht).step (hroom es e [] rfl t ht) hs

/-- A packet that finds a single free descriptor closes the ring. -/
theorem TxInv.overrun (hs : TxInv s) (hroom : ¬ Room s e) (ht : Net.step s e = some t) : ¬ TxLawful t := by
  cases e with
  | transmit p length =>
    simp only [Net.step, Option.ite_none_right_eq_some, Option.some.injEq] at ht
    obtain ⟨-, rfl⟩ := ht
    obtain ⟨-, -, -, hret, hsent, -⟩ := hs.transmit_eq p length
    intro hlaw
    have hfull : (outstanding s).length = TXDESCS - 1 := by
      have hhead : s.TDH = s.TDT + 1 := (not_not.mp hroom).symm
      rw [length_outstanding, hhead, sub_add_cancel_left]
      decide
    have hbound := hlaw.bound
    rw [hret, hsent, hs.order, List.length_append, List.length_append, List.length_singleton, hfull] at hbound
    omega
  | _ => exact absurd trivial hroom

/-- The transmit ring keeps its promises in exactly the runs in which every packet that is handed to
the device leaves a descriptor free. -/
theorem txLawful_iff (es : List Event) (hrun : run es e1000_init = some s) :
    TxLawfulThroughout es ↔ RoomThroughout es := by
  constructor
  · intro hlaw
    induction es using List.reverseRecOn generalizing s with
    | nil =>
      intro pre e post he
      exact absurd he.symm (by simp)
    | append_singleton es e ih =>
      rw [run_concat, Option.bind_eq_some_iff] at hrun
      obtain ⟨t, ht, hs⟩ := hrun
      have hroom : RoomThroughout es := ih ht fun pre post he =>
        hlaw pre (post ++ [e]) (by rw [he, List.append_assoc])
      intro pre e' post he u hu
      rcases List.eq_nil_or_concat post with rfl | ⟨post', e'', rfl⟩
      · obtain ⟨rfl, h'⟩ := List.append_inj' he rfl
        obtain rfl := (List.cons.inj h').1
        obtain rfl := Option.some.inj (ht.symm.trans hu)
        by_contra hno
        refine (hroom.inv ht).overrun hno hs (hlaw (es ++ [e]) [] (by rw [List.append_nil]) s ?_)
        rw [run_concat, ht, Option.bind_some, hs]
      · rw [List.concat_eq_append, ← List.cons_append, ← List.append_assoc] at he
        obtain ⟨rfl, -⟩ := List.append_inj' he rfl
        exact hroom pre e' post' rfl u hu
  · intro hroom pre post he t ht
    have hpre : RoomThroughout pre := by
      intro pre' e' post' he'
      exact hroom pre' e' (post' ++ post) (by rw [he, he', List.append_assoc]; rfl)
    exact (hpre.inv ht).toTxLawful

/-- Whether there is room for a packet. -/
def hasRoom (s : Nic) : Event → Bool
  | .transmit .. => s.TDT + 1 != s.TDH
  | _ => true

theorem room_of_hasRoom (s : Nic) (e : Event) (h : hasRoom s e = true) : Room s e := by
  cases e with
  | transmit p length => exact bne_iff_ne.mp h
  | _ => trivial

/-- Forty packets are handed over and sent, and forty more: the ring wraps around. -/
def twiceForty : List Event :=
  List.replicate 40 (.transmit (fun _ => 7) 1) ++ List.replicate 40 .send ++
    .irq true false :: List.replicate 40 (.transmit (fun _ => 8) 2) ++
    List.replicate 40 .send

theorem txLawful_twiceForty : TxLawfulThroughout twiceForty := by
  obtain ⟨s, hs⟩ : ∃ s, run twiceForty e1000_init = some s := Option.isSome_iff_exists.mp (by decide +kernel)
  exact (txLawful_iff _ hs).mpr (of_passes room_of_hasRoom (by decide +kernel))

/-- A burst of `TXDESCS` packets: the ring is full, and to the device it is empty. -/
theorem txLawful_burst_fails : ¬ ∀ es s, run es e1000_init = some s → TxLawful s := by
  intro hall
  have hrun : (run (List.replicate 64 (.transmit (fun _ => 7) 1)) e1000_init).map
    (fun s => (s.returned.length, s.sent.length)) =
      some (64, 0) := by decide +kernel
  obtain ⟨s, hs, he⟩ := Option.map_eq_some_iff.mp hrun
  obtain ⟨hret, hsent⟩ := Prod.mk.inj he
  have := (hall _ s hs).bound
  rw [hret, hsent] at this
  exact absurd this (by decide)

end OsLab.Net
