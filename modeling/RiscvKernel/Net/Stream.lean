import RiscvKernel.Lib.Mem
import RiscvKernel.Lib.Run

/-!
# Receiving a byte stream

`stream.c`: frames that arrive out of order wait in a list sorted by sequence number, and so does what is
left of a frame of which the user has taken a part. A step is one round of the loop of
`do_net_recv_stream`, with the time and what the device has at that moment; the call sleeps between rounds,
and the kernel may do other things.

The slots of the reorder buffer are counted, not named: a slot is in use while its entry is in the list.
Frames for which this would not be so, those without data, and frames that do not fit into a slot have no
step. The Ethernet, IP and TCP headers of the control packets are left out.
-/

namespace RiscvKernel.Net

open Lib

def rtpOffset : ℕ := 54
def rtpMagic : Byte := 0x45#8
def rtpDat : Byte := 1#8
/-- `sizeof(rtphdr)`. -/
def rtpHeader : ℕ := 8
def rxPktSize : ℕ := 2048
def rtpWindowSize : ℕ := 4096
def maxReorderNum : ℕ := 32
def rsdTimeoutTicks : ℕ := 100000
def recvTimeoutTicks : ℕ := rsdTimeoutTicks * 30

def u32 (n : ℕ) : ℕ := n % 2 ^ 32

/-- `ntohs`. -/
def ntohs (v : ℕ) : ℕ := v % 2 ^ 8 * 2 ^ 8 + v / 2 ^ 8

/-- `ntohl`. -/
def ntohl (v : ℕ) : ℕ :=
  v % 2 ^ 8 * 2 ^ 24 + v / 2 ^ 8 % 2 ^ 8 * 2 ^ 16 + v / 2 ^ 16 % 2 ^ 8 * 2 ^ 8 + v / 2 ^ 24

/-- `stream_buffer_entry`; `data` is what has been stored. -/
structure Entry where
  seq : ℕ
  len : ℕ
  data : List Byte
deriving DecidableEq

/-- What `send_control_packet` sends. -/
inductive Control
  | ack (seq : ℕ)
  | rsd (seq : ℕ)
deriving DecidableEq

/-- A packet: its length and the buffer that it has been read to. -/
structure Packet where
  length : ℕ
  raw : Mem

/-- The local variables of `do_net_recv_stream`. -/
structure RecvCall where
  wanted : ℤ
  received : ℤ
  lastRsdTime : ℕ
  lastProgressTime : ℕ

/-- The state of the module, the call that is going on, all bytes that have been copied to the users'
buffers and all packets that have been sent. -/
structure Stream where
  nextExpectSeq : ℕ
  reorderQueue : List Entry
  call : Option RecvCall
  delivered : List Byte
  sent : List Control

/-- `get_reorder_entry`. -/
def getReorderEntry (seq : ℕ) (q : List Entry) : Option Entry := q.find? fun e => e.seq = seq

/-- `list_insert` with `compare_seq`. -/
def listInsert (e : Entry) : List Entry → List Entry
  | [] => [e]
  | x :: xs => if e.seq ≤ x.seq then e :: x :: xs else x :: listInsert e xs

/-- `insert_reorder_packet`. -/
def insertReorderPacket (seq len : ℕ) (data : List Byte) (s : Stream) : Stream :=
  if seq < s.nextExpectSeq then s
  else if u32 (s.nextExpectSeq + rtpWindowSize) < seq then s
  else if (getReorderEntry seq s.reorderQueue).isSome then s
  else if maxReorderNum ≤ s.reorderQueue.length then s
  else { s with reorderQueue := listInsert ⟨seq, len, data⟩ s.reorderQueue }

/-- What is left of an entry when `n` bytes have been taken from it. -/
def takeEntry (n : ℕ) (e : Entry) : Option Entry :=
  -- the data stay where they are
  if n < e.len then some { e with len := e.len - n, seq := u32 (e.seq + n) } else none

/-- Change or delete the first entry with a sequence number. -/
def updateEntry (seq : ℕ) (f : Entry → Option Entry) : List Entry → List Entry
  | [] => []
  | x :: xs => if x.seq = seq then (f x).toList ++ xs else x :: updateEntry seq f xs

/-- How much of `len` bytes the user gets. -/
def RecvCall.copyLen (k : RecvCall) (len : ℕ) : ℕ :=
  if k.wanted - k.received < len then (k.wanted - k.received).toNat else len

/-- The packet is a data packet. -/
def Packet.isData (p : Packet) : Bool :=
  !(p.length < rtpOffset + rtpHeader) && p.raw rtpOffset = rtpMagic && p.raw (rtpOffset + 1) = rtpDat

def Packet.len (p : Packet) : ℕ := ntohs (le p.raw (rtpOffset + 2) 2)

def Packet.seq (p : Packet) : ℕ := ntohl (le p.raw (rtpOffset + 4) 4)

def Packet.data (p : Packet) : List Byte :=
  (List.range p.len).map fun i => p.raw (rtpOffset + rtpHeader + i)

/-- The entry that is expected is copied to the user. -/
def recvEntry (now : ℕ) (e : Entry) (k : RecvCall) (s : Stream) : Stream :=
  let n := k.copyLen e.len
  { nextExpectSeq := u32 (s.nextExpectSeq + n)
    reorderQueue := updateEntry s.nextExpectSeq (takeEntry n) s.reorderQueue
    call := some { k with received := k.received + n, lastProgressTime := now }
    delivered := s.delivered ++ e.data.take n
    sent := s.sent ++ [.ack (u32 (s.nextExpectSeq + e.len))] }

/-- The difference of two times. -/
def ticksSince (time now : ℕ) : ℕ := (now + 2 ^ 64 - time) % 2 ^ 64

/-- The device has no packet. -/
def recvNothing (now : ℕ) (k : RecvCall) (s : Stream) : Stream :=
  if recvTimeoutTicks < ticksSince k.lastProgressTime now then { s with call := none }
  else if rsdTimeoutTicks < ticksSince k.lastRsdTime now then
    { s with sent := s.sent ++ [.rsd s.nextExpectSeq], call := some { k with lastRsdTime := now } }
  else s

/-- The beginning of the packet that is expected goes to the user. -/
def copyData (p : Packet) (k : RecvCall) (s : Stream) : Stream :=
  let n := k.copyLen p.len
  { s with
    nextExpectSeq := u32 (s.nextExpectSeq + n)
    call := some { k with received := k.received + n }
    delivered := s.delivered ++ p.data.take n
    sent := s.sent ++ [.ack (u32 (s.nextExpectSeq + p.len))] }

/-- The packet that is expected. -/
def recvExpected (p : Packet) (k : RecvCall) (s : Stream) : Stream :=
  let n := k.copyLen p.len
  if n < p.len then
    insertReorderPacket (copyData p k s).nextExpectSeq (p.len - n) (p.data.drop n) (copyData p k s)
  else copyData p k s

/-- A data packet. -/
def recvData (now : ℕ) (p : Packet) (k : RecvCall) (s : Stream) : Stream :=
  if p.seq = s.nextExpectSeq then recvExpected p k s
  else if s.nextExpectSeq < p.seq then
    { insertReorderPacket p.seq p.len p.data s with
      sent := s.sent ++ [.rsd s.nextExpectSeq]
      call := some { k with lastRsdTime := now } }
  else { s with sent := s.sent ++ [.ack s.nextExpectSeq] }

/-- One round of the loop of `do_net_recv_stream`. -/
def recvRound (now : ℕ) (poll : Option Packet) (k : RecvCall) (s : Stream) : Option Stream :=
  if k.received < k.wanted then
    match getReorderEntry s.nextExpectSeq s.reorderQueue with
    | some e => some (recvEntry now e k s)
    | none =>
      match poll with
      | none => some (recvNothing now k s)
      | some p =>
        if p.isData then
          if p.len = 0 ∨ rxPktSize < rtpOffset + rtpHeader + p.len then none
          else some (recvData now p k s)
        else some s
  else some { s with call := none }

/-- What happens. -/
inductive Act
  /-- `do_net_recv_stream` is called -/
  | recv (wanted : ℤ) (now : ℕ)
  /-- the call goes through its loop once more -/
  | round (now : ℕ) (poll : Option Packet)
  /-- `do_reset_stream` -/
  | reset

/-- A call starts when no other is going on. -/
def step (s : Stream) : Act → Option Stream
  | .recv wanted now => if s.call.isSome then none else some { s with call := some ⟨wanted, 0, 0, now⟩ }
  | .round now poll => s.call.bind fun k => recvRound now poll k s
  | .reset => if s.call.isSome then none else some { s with nextExpectSeq := 0 }

def next (s : Stream) (a : Act) : Stream := (step s a).getD s

/-- The state after `init_stream`. -/
def initStream : Stream := ⟨0, [], none, [], []⟩

end RiscvKernel.Net
