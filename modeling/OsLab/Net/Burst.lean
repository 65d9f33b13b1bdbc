import OsLab.Net.Transmit

/-!
# Sending several packets

`do_net_multisend` calls `e1000_transmit` once for each packet, always with the same `txbuffer`. The device
works on between the calls. As long as the ring has room whatever the device has done by then, no call
blocks, and one copy of the packet after the other is handed over (`multisend_iff`).
-/

namespace OsLab.Net

open Lib

/-! ### The device meanwhile -/

/-- What the device does on its own. -/
inductive Work where
  /-- It sends a packet, if there is one. -/
  | send
  /-- It receives a packet, if there is a descriptor for it. -/
  | receive (p : Arrival)

/-- The device works. -/
def deviceStep (s : Nic) : Work → Nic
  | .send => (sendPacket s).getD s
  | .receive p => (receivePacket p s).getD s

/-- What `e1000_transmit` returns. -/
def transmit_len (length : ℕ) : ℕ := if length > TX_PKT_SIZE then TX_PKT_SIZE else length

/-- `do_net_multisend(txbuffer, pkt_num, pkt_len)`: what is returned, and the card; `none` where a call of
`e1000_transmit` blocks. The device does `meanwhile n` before the call after which `n` are left. -/
def do_net_multisend (txbuffer : ℕ → UInt8) (meanwhile : ℕ → List Work) : ℕ → ℕ → Nic → Option (ℕ × Nic)
  | 0, _, s => some (0, s)
  | pkt_num + 1, pkt_len, s =>
    let s := (meanwhile pkt_num).foldl deviceStep s
    if (s.tx_desc_array s.TDT).dd = false then none
    else
      (do_net_multisend txbuffer meanwhile pkt_num pkt_len (e1000_transmit txbuffer pkt_len s)).map fun r =>
        (transmit_len pkt_len + r.1, r.2)

/-- The packet at `txbuffer`. -/
def packetAt (txbuffer : ℕ → UInt8) (pkt_len : ℕ) : Packet :=
  (bytes txbuffer (min pkt_len TX_PKT_SIZE), decide (pkt_len ≤ TX_PKT_SIZE))

variable {s t : Nic} {txbuffer : ℕ → UInt8} {meanwhile : ℕ → List Work} {pkt_num pkt_len : ℕ} {es : List Event} {r : ℕ}

/-! ### Room in the ring -/

/-- The device only makes room: nothing is handed over meanwhile. -/
theorem deviceStep_spec (hs : TxInv s) (w : Work) :
    TxInv (deviceStep s w) ∧ (deviceStep s w).returned = s.returned ∧
      (outstanding (deviceStep s w)).length ≤ (outstanding s).length := by
  cases w with
  | send =>
    rw [deviceStep]
    cases ht : sendPacket s with
    | none => exact ⟨hs, rfl, Nat.le_refl _⟩
    | some t =>
      have hinv := hs.send ht
      rw [sendPacket, Option.ite_none_left_eq_some] at ht
      obtain rfl := Option.some.inj ht.2
      refine ⟨hinv, rfl, ?_⟩
      have hafter := congrArg List.length hinv.order
      have hbefore := congrArg List.length hs.order
      simp only [List.length_append, List.length_singleton, Option.getD_some] at hafter hbefore ⊢
      omega
  | receive p =>
    rw [deviceStep]
    cases ht : receivePacket p s with
    | none => exact ⟨hs, rfl, Nat.le_refl _⟩
    | some t =>
      rw [receivePacket, Option.ite_none_left_eq_some] at ht
      obtain rfl := Option.some.inj ht.2
      exact ⟨hs.same ⟨rfl, rfl, rfl, rfl, rfl, rfl, rfl, rfl⟩, rfl, Nat.le_refl _⟩

theorem deviceSteps_spec (hs : TxInv s) (ws : List Work) :
    TxInv (ws.foldl deviceStep s) ∧ (ws.foldl deviceStep s).returned = s.returned ∧
      (outstanding (ws.foldl deviceStep s)).length ≤ (outstanding s).length := by
  induction ws generalizing s with
  | nil => exact ⟨hs, rfl, Nat.le_refl _⟩
  | cons w ws ih =>
    obtain ⟨h1, h2, h3⟩ := deviceStep_spec hs w
    obtain ⟨g1, g2, g3⟩ := ih h1
    exact ⟨g1, g2.trans h2, g3.trans h3⟩

/-- One packet more is outstanding. -/
theorem TxInv.outstanding_transmit (hs : TxInv s) (hroom : s.TDT + 1 ≠ s.TDH) :
    outstanding (e1000_transmit txbuffer pkt_len s) = outstanding s ++ [packetAt txbuffer pkt_len] := by
  obtain ⟨-, -, -, hret, hsent, -⟩ := hs.transmit_eq txbuffer pkt_len
  have hafter := (hs.transmit txbuffer pkt_len hroom).order
  rw [hret, hsent, hs.order, List.append_assoc] at hafter
  exact (List.append_cancel_left hafter).symm

/-- While fewer than `TXDESCS - 1` packets are outstanding, there is room. -/
theorem room_of_length (h : (outstanding s).length < TXDESCS - 1) : s.TDT + 1 ≠ s.TDH := by
  intro hclosed
  have hfull : (outstanding s).length = TXDESCS - 1 := by
    rw [length_outstanding, ← hclosed, sub_add_cancel_left]
    decide
  omega

/-! ### The burst -/

/-- All packets are handed over, whatever the device does meanwhile. -/
theorem TxInv.multisend (hs : TxInv s) (h : pkt_num + (outstanding s).length ≤ TXDESCS - 1) : ∃ t,
    do_net_multisend txbuffer meanwhile pkt_num pkt_len s = some (pkt_num * transmit_len pkt_len, t) ∧ TxInv t ∧
      t.returned = s.returned ++ List.replicate pkt_num (packetAt txbuffer pkt_len) := by
  induction pkt_num generalizing s with
  | zero => exact ⟨s, by rw [do_net_multisend, Nat.zero_mul], hs, by rw [List.replicate_zero, List.append_nil]⟩
  | succ n ih =>
    obtain ⟨hinv, hsame, hless⟩ := deviceSteps_spec hs (meanwhile n)
    rw [do_net_multisend]
    generalize (meanwhile n).foldl deviceStep s = u at hinv hsame hless
    have hroom : u.TDT + 1 ≠ u.TDH := room_of_length (by omega)
    have hlength : n + (outstanding (e1000_transmit txbuffer pkt_len u)).length ≤ TXDESCS - 1 := by
      rw [hinv.outstanding_transmit hroom, List.length_append, List.length_singleton]
      omega
    obtain ⟨t, he, ht, hret⟩ := ih (hinv.transmit txbuffer pkt_len hroom) hlength
    have hfree : ¬ (u.tx_desc_array u.TDT).dd = false := by
      rw [hinv.free u.TDT not_inArc_right]
      decide
    obtain ⟨-, -, -, hone, -⟩ := hinv.transmit_eq txbuffer pkt_len
    refine ⟨t, ?_, ht, ?_⟩
    · simp only [if_neg hfree, he, Option.map_some, Nat.succ_mul, Nat.add_comm]
    · rw [hret, hone, hsame, List.append_assoc, List.replicate_succ]
      rfl

theorem e1000_transmit_sent (s : Nic) : (e1000_transmit txbuffer pkt_len s).sent = s.sent := by
  rw [e1000_transmit, transmitRound]
  dsimp only
  split <;> rfl

/-- While the device does nothing, nothing is sent. -/
theorem multisend_sent (he : do_net_multisend txbuffer (fun _ => []) pkt_num pkt_len s = some (r, t)) :
    t.sent = s.sent := by
  induction pkt_num generalizing s r with
  | zero =>
    obtain ⟨-, rfl⟩ := Prod.mk.inj (Option.some.inj he)
    rfl
  | succ n ih =>
    rw [do_net_multisend, Option.ite_none_left_eq_some, Option.map_eq_some_iff] at he
    obtain ⟨hfree, r', hrest, heq⟩ := he
    obtain ⟨-, rfl⟩ := Prod.mk.inj heq
    exact (ih hrest).trans (e1000_transmit_sent s)

/-- **When `do_net_multisend` hands over all packets**: from a state in which every packet so far has found
room, it comes back without blocking, keeps the ring in order and hands over `pkt_num` copies of the packet
whatever the device does meanwhile, exactly if no more than `TXDESCS - 1` packets are outstanding with those
of the call. -/
theorem multisend_iff (hrun : run es e1000_init = some s) (hroom : RoomThroughout es) :
    (∀ meanwhile, ∃ t,
      do_net_multisend txbuffer meanwhile pkt_num pkt_len s = some (pkt_num * transmit_len pkt_len, t) ∧
      TxLawful t ∧ t.returned = s.returned ++ List.replicate pkt_num (packetAt txbuffer pkt_len)) ↔
      pkt_num + (outstanding s).length ≤ TXDESCS - 1 := by
  constructor
  · intro hall
    -- a device that does nothing has all packets before it
    obtain ⟨t, he, ht, hret⟩ := hall fun _ => []
    have hbound := ht.bound
    rw [hret, multisend_sent he, (hroom.inv hrun).order, List.length_append,
      List.length_append, List.length_replicate] at hbound
    omega
  · intro h meanwhile
    obtain ⟨t, he, ht, hret⟩ := (hroom.inv hrun).multisend h
    exact ⟨t, he, ht.toTxLawful, hret⟩

/-- The device sends one packet and receives one, in the middle of a burst. -/
def busyAt60 (n : ℕ) : List Work := if n = 60 then [.send, .receive ⟨List.replicate 60 0, by decide⟩] else []

/-- Behind a packet that is still outstanding, 62 packets find room. -/
theorem multisend_iff_one : ∃ s t, run [.transmit (fun _ => 1) 60] e1000_init = some s ∧
    do_net_multisend (fun _ => 7) busyAt60 62 100 s = some (6200, t) ∧ TxLawful t ∧
      t.returned = s.returned ++ List.replicate 62 (packetAt (fun _ => 7) 100) := by
  have hroom : RoomThroughout [.transmit (fun _ => 1) 60] := by
    intro pre e post he t ht
    rcases pre with _ | ⟨e₁, pre⟩
    · obtain ⟨rfl, -⟩ := List.cons.inj he
      obtain rfl := Option.some.inj ht
      show (0 : Index) + 1 ≠ 0
      decide
    · have := congrArg List.length he
      simp at this
  obtain ⟨s, hs, hout⟩ := Option.map_eq_some_iff.mp
    (show (run [.transmit (fun _ => 1) 60] e1000_init).map (fun s => (s.TDT - s.TDH).val) = some 1 by decide)
  obtain ⟨t, he, ht, hret⟩ := (multisend_iff hs hroom).mpr (by rw [length_outstanding, hout, TXDESCS]) busyAt60
  exact ⟨s, t, hs, he, ht, hret⟩

end OsLab.Net
