import RiscvKernel.Lib.Mem

/-!
# The network card and its driver

`drivers/e1000.c` and the parts of `e1000.h` it uses. The descriptors and the packet buffers are the
memory that the driver and the card share. The address in a descriptor is the offset of the buffer
in its array. The cache flushes, the MAC address, the base addresses of the rings and the interrupt
registers are left out.
-/

namespace RiscvKernel.Drivers

open Lib

abbrev txDescs : ℕ := 64
abbrev rxDescs : ℕ := 64
abbrev txPktSize : ℕ := 2048
abbrev rxPktSize : ℕ := 2048
/-- `sizeof(e1000_tx_desc)` and `sizeof(e1000_rx_desc)`. -/
abbrev descSize : ℕ := 16

abbrev txdCmdEop : ℕ := 0x01
abbrev txdCmdRs : ℕ := 0x08
abbrev rxdStatDd : ℕ := 0x01
abbrev tctlEn : ℕ := 0x02
abbrev tctlPsp : ℕ := 0x08
abbrev rctlEn : ℕ := 0x02
abbrev rctlBam : ℕ := 0x8000
abbrev rctlSz2048 : ℕ := 0
abbrev rctlBsex : ℕ := 0x02000000

/-- `struct e1000_tx_desc`. -/
structure TxDesc where
  addr : ℕ
  length : ℕ
  cso : ℕ
  cmd : ℕ
  status : ℕ
  css : ℕ
  special : ℕ

/-- `struct e1000_rx_desc`. -/
structure RxDesc where
  addr : ℕ
  length : ℕ
  csum : ℕ
  status : ℕ
  errors : ℕ
  special : ℕ

/-- The registers of the card, the descriptors and the packet buffers. -/
structure E1000 where
  tdh : ℕ
  tdt : ℕ
  tdlen : ℕ
  tctl : ℕ
  rdh : ℕ
  rdt : ℕ
  rdlen : ℕ
  rctl : ℕ
  txDescArray : ℕ → TxDesc
  rxDescArray : ℕ → RxDesc
  txPktBuffer : Mem
  rxPktBuffer : Mem

/-! ## Configuration -/

/-- `e1000_reset`. -/
def e1000Reset (e : E1000) : E1000 :=
  { e with rctl := 0, tctl := 0, tdh := 0, tdt := 0, rdh := 0, rdt := 0 }

/-- `e1000_configure_tx`. -/
def e1000ConfigureTx (e : E1000) : E1000 :=
  { e with
    txDescArray := fun i => if i < txDescs then ⟨0, 0, 0, 0, 0, 0, 0⟩ else e.txDescArray i
    tdlen := txDescs * descSize
    tdh := 0
    tdt := 0
    tctl := tctlEn ||| tctlPsp ||| 0x10 <<< 4 ||| 0x40 <<< 12 }

/-- `e1000_configure_rx`. -/
def e1000ConfigureRx (e : E1000) : E1000 :=
  { e with
    rxDescArray := fun i =>
      if i < rxDescs then
        { e.rxDescArray i with
          status := 0, length := 0, errors := 0, csum := 0, addr := rxPktSize * i }
      else e.rxDescArray i
    rdlen := rxDescs * descSize
    rdh := 0
    rdt := rxDescs - 1
    rctl := (rctlEn ||| rctlBam ||| rctlSz2048) &&& (2 ^ 32 - 1 - rctlBsex) }

/-- `e1000_init`. -/
def e1000Init (e : E1000) : E1000 := e1000ConfigureRx (e1000ConfigureTx (e1000Reset e))

/-! ## The steps of `e1000_transmit`

The card works while the driver does, so a call is a sequence of steps between which it may run: one
for each access to a register, one for the copy and one for the descriptor. -/

/-- Where a call of `e1000_transmit` stands: which values it has read so far. -/
inductive TxCall
  | entry (txpacket : Mem) (length : ℤ)
  | tail (txpacket : Mem) (length : ℤ) (tail : ℕ)
  | room (txpacket : Mem) (length : ℤ) (tail : ℕ)
  | copied (txpacket : Mem) (length : ℤ) (tail : ℕ)
  | filled (txpacket : Mem) (length : ℤ) (tail : ℕ)
  | done (txpacket : Mem) (length : ℤ) (result : ℤ)

/-- The length after the truncation. -/
def clip (length : ℤ) : ℤ := if length > txPktSize then txPktSize else length

/-- `memcpy(tx_pkt_buffer[tail], txpacket, length)`. -/
def copyPacket (e : E1000) (txpacket : Mem) (length : ℤ) (tail : ℕ) : E1000 :=
  { e with txPktBuffer := blit e.txPktBuffer (txPktSize * tail) txpacket 0 (clip length).toNat }

/-- The assignments to `*desc`. -/
def fillDesc (e : E1000) (length : ℤ) (tail : ℕ) : E1000 :=
  { e with
    txDescArray := Function.update e.txDescArray tail
      { addr := txPktSize * tail, length := (clip length).toNat % 2 ^ 16, cso := 0,
        cmd := txdCmdEop ||| txdCmdRs, status := 0, css := 0, special := 0 } }

/-- One step of `e1000_transmit`. -/
def transmitStep (e : E1000) : TxCall → E1000 × TxCall
  | .entry p n => (e, .tail p n e.tdt)
  | .tail p n t => (e, if e.tdh = (t + 1) % txDescs then .done p n 0 else .room p n t)
  | .room p n t => (copyPacket e p n t, .copied p n t)
  | .copied p n t => (fillDesc e n t, .filled p n t)
  | .filled p n t => ({ e with tdt := (t + 1) % txDescs }, .done p n (clip n))
  | .done p n r => (e, .done p n r)

/-- `e1000_transmit`, when the card does not run meanwhile. -/
def e1000Transmit (e : E1000) (txpacket : Mem) (length : ℤ) : ℤ × E1000 :=
  let tail := e.tdt
  let head := e.tdh
  if head = (tail + 1) % txDescs then (0, e)
  else
    let e := copyPacket e txpacket length tail
    let e := fillDesc e length tail
    (clip length, { e with tdt := (tail + 1) % txDescs })

/-! ## The steps of `e1000_poll` -/

/-- Where a call of `e1000_poll` stands; `rxbuffer` is `none` for a null pointer. -/
inductive RxCall
  | entry (rxbuffer : Option Mem)
  | tail (rxbuffer : Option Mem) (tail : ℕ)
  | ready (rxbuffer : Option Mem) (next : ℕ)
  | copied (rxbuffer : Option Mem) (next length : ℕ)
  | reset (rxbuffer : Option Mem) (next length : ℕ)
  | done (rxbuffer : Option Mem) (result : ℕ)

/-- The caller's buffer after the copy. -/
def copyFrame (e : E1000) (rxbuffer : Option Mem) (next length : ℕ) : Option Mem :=
  rxbuffer.map fun m => blit m 0 e.rxPktBuffer (rxPktSize * next) length

/-- The reset of the descriptor. -/
def resetDesc (e : E1000) (next : ℕ) : E1000 :=
  { e with
    rxDescArray := Function.update e.rxDescArray next
      { e.rxDescArray next with status := 0, length := 0, csum := 0, errors := 0 } }

/-- One step of `e1000_poll`. -/
def pollStep (e : E1000) : RxCall → E1000 × RxCall
  | .entry b => (e, .tail b e.rdt)
  | .tail b t =>
    let next := (t + 1) % rxDescs
    (e, if (e.rxDescArray next).status &&& rxdStatDd = 0 then .done b 0 else .ready b next)
  | .ready b next =>
    let length := (e.rxDescArray next).length
    (e, .copied (copyFrame e b next length) next length)
  | .copied b next length => (resetDesc e next, .reset b next length)
  | .reset b next length => ({ e with rdt := next }, .done b length)
  | .done b r => (e, .done b r)

/-- `e1000_poll`, when the card does not run meanwhile: the result, the caller's buffer and the
state. -/
def e1000Poll (e : E1000) (rxbuffer : Option Mem) : ℕ × Option Mem × E1000 :=
  let tail := e.rdt
  let next := (tail + 1) % rxDescs
  if (e.rxDescArray next).status &&& rxdStatDd = 0 then (0, rxbuffer, e)
  else
    let length := (e.rxDescArray next).length
    let rxbuffer := copyFrame e rxbuffer next length
    let e := resetDesc e next
    (length, rxbuffer, { e with rdt := next })

/-! ## The card -/

/-- The `n` bytes at `a`. -/
def bytes (m : Mem) (a n : ℕ) : List Byte := (List.range n).map fun i => m (a + i)

/-- The data of the transmit descriptor `i`. -/
def E1000.txData (e : E1000) (i : ℕ) : List Byte :=
  bytes e.txPktBuffer (e.txDescArray i).addr (e.txDescArray i).length

/-- The head after the descriptor at `h` in a ring of `len` bytes. -/
def nextDesc (h len : ℕ) : ℕ := (h + 1) % (len / descSize)

/-- The card has taken the transmit descriptor at the head; it reports this in the status. -/
def E1000.consume (e : E1000) : E1000 :=
  { e with
    tdh := nextDesc e.tdh e.tdlen
    txDescArray := Function.update e.txDescArray e.tdh
      { e.txDescArray e.tdh with
        status := if (e.txDescArray e.tdh).cmd &&& txdCmdRs = 0 then (e.txDescArray e.tdh).status
          else (e.txDescArray e.tdh).status ||| 1 } }

/-- The card has stored a frame at the receive descriptor at the head; `v` gives the fields other
than the address and the length. -/
def E1000.store (e : E1000) (frame : List Byte) (v : RxDesc) : E1000 :=
  { e with
    rdh := nextDesc e.rdh e.rdlen
    rxPktBuffer := blit e.rxPktBuffer (e.rxDescArray e.rdh).addr (fun i => frame.getD i 0#8) 0
      frame.length
    rxDescArray := Function.update e.rxDescArray e.rdh
      { v with addr := (e.rxDescArray e.rdh).addr, length := frame.length } }

end RiscvKernel.Drivers
