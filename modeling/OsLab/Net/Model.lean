import OsLab.Lib.Bytes
import OsLab.Lib.Circle

/-!
# The network driver

The functions of `drivers/e1000.c` and `kernel/net/net.c` that move packets: `e1000_transmit`,
`e1000_poll` and `net_handle_irq`, with the rings of descriptors that they share with the device. The
tasks are not told apart: a task that sleeps in the driver is the call it is in, with the values of its
local variables.

The device is what the driver relies on. It owns the transmit descriptors from `TDH` up to but not
including `TDT` and sends them in this order; it fills the receive descriptors from `RDH` up to but
not including `RDT` in this order, one packet each. The kernel is not preempted: a task in the driver
runs alone until it returns or blocks, but the device works on in the meantime. `stuck` notes that a
task does not come back from the driver.
-/

namespace OsLab.Net

open Lib

/-- `TXDESCS` and `RXDESCS`. -/
def TXDESCS : ℕ := 64

/-- `TX_PKT_SIZE` and `RX_PKT_SIZE`. -/
def TX_PKT_SIZE : ℕ := 2048

/-- An index of a ring. -/
abbrev Index := Fin 64

instance neZero_index : NeZero 64 := ⟨by decide⟩

/-- A transmit descriptor with its packet buffer. -/
structure TxDesc where
  length : ℕ
  /-- `cmd & E1000_TXD_CMD_EOP`. -/
  eop : Bool
  /-- `status & E1000_TXD_STAT_DD`. -/
  dd : Bool
  buffer : ℕ → UInt8

/-- A receive descriptor with its packet buffer. -/
structure RxDesc where
  length : ℕ
  /-- `status & E1000_RXD_STAT_DD`. -/
  dd : Bool
  /-- `status & E1000_RXD_STAT_EOP`. -/
  eop : Bool
  buffer : ℕ → UInt8

/-- A call of `e1000_transmit(txpacket, length)`, in its loop. -/
structure Sender where
  index : Index
  txpacket : ℕ → UInt8
  length : ℕ

/-- A call of `e1000_poll`, in its loops. -/
structure Receiver where
  /-- `none` where the outer loop is about to read `E1000_RDT`. -/
  index : Option Index
  poll_len : ℕ

/-- A packet on the line: its bytes, and whether it ends with them. -/
abbrev Packet := List UInt8 × Bool

/-- A packet from the line: it has a header, and fits a buffer. -/
abbrev Arrival := { p : List UInt8 // 14 < p.length ∧ p.length ≤ TX_PKT_SIZE }

/-- The driver, the device and the history. -/
structure Nic where
  tx_desc_array : Index → TxDesc
  rx_desc_array : Index → RxDesc
  TDH : Index
  TDT : Index
  RDH : Index
  RDT : Index
  /-- `E1000_IMS & E1000_IMS_TXQE`. The bit of `RXDMT0` is set at the start and stays. -/
  txqe : Bool
  send_block_queue : List Sender
  recv_block_queue : List Receiver
  /-- Calls that have been woken and wait for the processor. -/
  senders : List Sender
  receivers : List Receiver
  /-- The call that has the processor. -/
  running : Option Receiver
  /-- A task does not come back. -/
  stuck : Bool
  /-- The packets for which `e1000_transmit` has returned. -/
  returned : List Packet
  /-- The packets that the device has sent. -/
  sent : List Packet
  /-- A descriptor was written while the device owned it. -/
  overwritten : Bool
  /-- The packets that the device has put into the receive ring. -/
  arrived : List (List UInt8)
  /-- The packets that calls of `e1000_poll` have returned. -/
  delivered : List (List UInt8)
  /-- The values of `E1000_RDT` before and after each of the driver's writes. -/
  tails : List (Index × Index)

/-- `e1000_init`: what `e1000_configure_tx` and `e1000_configure_rx` set up. -/
def e1000_init : Nic where
  tx_desc_array := fun _ => ⟨0, false, true, fun _ => 0⟩
  rx_desc_array := fun _ => ⟨0, false, false, fun _ => 0⟩
  TDH := 0
  TDT := 0
  RDH := 0
  RDT := 63
  txqe := false
  send_block_queue := []
  recv_block_queue := []
  senders := []
  receivers := []
  running := none
  stuck := false
  returned := []
  sent := []
  overwritten := false
  arrived := []
  delivered := []
  tails := []

/-! ### Transmitting -/

/-- The packet in a descriptor. -/
def TxDesc.packet (d : TxDesc) : Packet := (bytes d.buffer d.length, d.eop)

/-- The packet that a call hands to the device. -/
def Sender.packet (c : Sender) : Packet :=
  (bytes c.txpacket (min c.length TX_PKT_SIZE), decide (c.length ≤ TX_PKT_SIZE))

/-- One round of the loop of `e1000_transmit`, and the rest of it when the descriptor is free. -/
def transmitRound (c : Sender) (s : Nic) : Nic :=
  let d := s.tx_desc_array c.index
  if d.dd = false then { s with txqe := true, send_block_queue := s.send_block_queue ++ [c] }
  else
    let transmit_len := if c.length > TX_PKT_SIZE then TX_PKT_SIZE else c.length
    { s with
      tx_desc_array := Function.update s.tx_desc_array c.index
        { length := transmit_len, eop := !decide (c.length > TX_PKT_SIZE), dd := false,
          buffer := memcpy d.buffer 0 c.txpacket 0 transmit_len }
      TDT := c.index + 1
      returned := s.returned ++ [c.packet]
      overwritten := s.overwritten || decide (InArc s.TDH s.TDT c.index) }

/-- `e1000_transmit(txpacket, length)`, up to its first block. -/
def e1000_transmit (txpacket : ℕ → UInt8) (length : ℕ) (s : Nic) : Nic := transmitRound ⟨s.TDT, txpacket, length⟩ s

/-- The device sends a packet. -/
def sendPacket (s : Nic) : Option Nic :=
  if s.TDH = s.TDT then none
  else some { s with
    tx_desc_array := Function.update s.tx_desc_array s.TDH { s.tx_desc_array s.TDH with dd := true }
    TDH := s.TDH + 1
    sent := s.sent ++ [(s.tx_desc_array s.TDH).packet] }

/-! ### Receiving -/

/-- The fields of `rx_desc_array[index]` are cleared, and `E1000_RDT` is set to `index`. -/
def recycle (index : Index) (s : Nic) : Nic :=
  { s with
    rx_desc_array :=
      Function.update s.rx_desc_array index
        { s.rx_desc_array index with length := 0, dd := false, eop := false }
    RDT := index
    tails := s.tails ++ [(s.RDT, index)] }

/-- One round of the inner loop of `e1000_poll`, and what follows it when there is a packet. `mymemcpy`
copies eight bytes at a time, and ends when exactly none are left. -/
def pollRound (r : Receiver) (s : Nic) : Nic :=
  let index := r.index.getD (s.RDT + 1)
  let d := s.rx_desc_array index
  if d.dd = false then
    { s with running := none, recv_block_queue := s.recv_block_queue ++ [{ r with index := some index }] }
  else if d.buffer 14 ≠ 43 then { recycle index s with running := some { r with index := none } }
  else
    let poll_len := r.poll_len + d.length
    if poll_len % 8 ≠ 0 then { s with running := some r, stuck := true }
    else if d.eop then { recycle index s with running := none, delivered := s.delivered ++ [bytes d.buffer poll_len] }
    else { recycle index s with running := some ⟨none, poll_len⟩ }

/-- The device receives a packet. -/
def receivePacket (p : Arrival) (s : Nic) : Option Nic :=
  if s.RDH = s.RDT then none
  else some { s with
    rx_desc_array := Function.update s.rx_desc_array s.RDH
      { length := p.1.length, dd := true, eop := true,
        buffer := memcpy (s.rx_desc_array s.RDH).buffer 0 (fun i => p.1.getD i 0) 0 p.1.length }
    RDH := s.RDH + 1
    arrived := s.arrived ++ [p.1] }

/-! ### Interrupts and steps -/

/-- `net_handle_irq`, where `icr_txqe` and `icr_rxdmt0` are the bits of `E1000_ICR`. -/
def net_handle_irq (icr_txqe icr_rxdmt0 : Bool) (s : Nic) : Nic :=
  let s := if icr_txqe &&
    s.txqe then {
      s with senders := s.senders ++ s.send_block_queue, send_block_queue := [], txqe := false } else s
  if icr_rxdmt0 then { s with receivers := s.receivers ++ s.recv_block_queue, recv_block_queue := [] } else s

/-- What can happen. -/
inductive Event where
  /-- A task calls `e1000_transmit`. -/
  | transmit (txpacket : ℕ → UInt8) (length : ℕ)
  /-- A task calls `e1000_poll`. -/
  | poll
  /-- The call that has the processor goes on. -/
  | go
  /-- The scheduler switches to a woken call of `e1000_transmit`. -/
  | resumeSender (n : ℕ)
  /-- The scheduler switches to a woken call of `e1000_poll`. -/
  | resumeReceiver (n : ℕ)
  /-- The device interrupts. -/
  | irq (icr_txqe icr_rxdmt0 : Bool)
  /-- The device sends a packet. -/
  | send
  /-- The device receives a packet. -/
  | receive (p : Arrival)

/-- No task has the processor in the driver. -/
def Nic.Idle (s : Nic) : Prop := s.running.isNone ∧ s.stuck = false

instance (s : Nic) : Decidable s.Idle := inferInstanceAs (Decidable (_ ∧ _))

/-- One step. -/
def step (s : Nic) : Event → Option Nic
  | .transmit txpacket length => if s.Idle then some (e1000_transmit txpacket length s) else none
  | .poll => if s.Idle then some (pollRound ⟨none, 0⟩ s) else none
  | .go => if s.stuck then none else s.running.map fun r => pollRound r s
  | .resumeSender n =>
    if s.Idle then s.senders[n]?.map fun c => transmitRound c { s with senders := s.senders.eraseIdx n } else none
  | .resumeReceiver n =>
    if s.Idle then s.receivers[n]?.map fun r => pollRound r { s with receivers := s.receivers.eraseIdx n } else none
  | .irq icr_txqe icr_rxdmt0 => if s.Idle then some (net_handle_irq icr_txqe icr_rxdmt0 s) else none
  | .send => sendPacket s
  | .receive p => receivePacket p s

/-- Some steps. -/
def run : List Event → Nic → Option Nic
  | [], s => some s
  | e :: es, s => (step s e).bind (run es)

theorem run_concat (es : List Event) (e : Event) (s : Nic) : run (es ++ [e]) s = (run es s).bind fun t => step t e := by
  induction es generalizing s with
  | nil => cases h : step s e <;> simp [run, h]
  | cons e' es ih =>
    rw [List.cons_append, run, run, Option.bind_assoc]
    congr 1
    funext t
    exact ih t

/-- A test is passed before every step of a run. -/
def passes (p : Nic → Event → Bool) : List Event → Nic → Bool
  | [], _ => true
  | e :: es, s => p s e && ((step s e).map (passes p es)).getD true

theorem of_passes {P : Nic → Event → Prop} {p : Nic → Event → Bool}
    (hP : ∀ s e, p s e = true → P s e) {es : List Event} {s : Nic}
    (h : passes p es s = true) (pre : List Event) (e : Event) (post : List Event) (he : es = pre ++ e :: post) (t : Nic)
    (ht : run pre s = some t) : P t e := by
  induction pre generalizing es s with
  | nil =>
    obtain rfl := Option.some.inj ht
    rw [he, List.nil_append, passes, Bool.and_eq_true] at h
    exact hP _ _ h.1
  | cons e' pre ih =>
    rw [run, Option.bind_eq_some_iff] at ht
    obtain ⟨u, hu, ht⟩ := ht
    rw [he, List.cons_append, passes, Bool.and_eq_true, hu] at h
    exact ih h.2 rfl ht

end OsLab.Net
