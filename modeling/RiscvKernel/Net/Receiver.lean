import RiscvKernel.Lib.SortedRing
import RiscvKernel.Net.Stream

/-!
# The receiver and its memory

`stream.c` once more, with the slots of `reorder_entries` and the pointers of `reorder_queue` as they are in
memory, and with a record of the copies that a round of the loop of `do_net_recv_stream` makes. Here every
frame has a step, whatever its header says.

A walk over the queue goes through at most as many nodes as there are slots and then gets to the head; one
that does not has no end, and neither has the round.
-/

namespace RiscvKernel.Net

open Lib

/-- An index of `reorder_entries`. -/
abbrev Slot := Fin maxReorderNum

/-- `reorder_queue` and `reorder_entries`. -/
structure Reorder where
  links : Links Slot Unit
  seq : Slot → ℕ
  len : Slot → ℕ
  data : Slot → Mem

/-- The size of the data of an entry. -/
def entryDataSize : ℕ := 2048

/-- A read or write of `n` bytes. -/
inductive Access
  /-- from `raw_buffer + start` -/
  | raw (start n : ℕ)
  /-- from the data of a slot -/
  | load (i : Slot) (n : ℕ)
  /-- to the data of a slot -/
  | store (i : Slot) (n : ℕ)
  /-- to the user's buffer -/
  | user (start : ℤ) (n : ℕ)
deriving DecidableEq

/-- The state of the module, the call that is going on with the user's buffer, all packets that have been
sent, and the accesses of the last round. -/
structure Receiver where
  reorder : Reorder
  nextExpectSeq : ℕ
  hasValidHeader : Bool
  lastValidHeader : Mem
  call : Option RecvCall
  buffer : Mem
  sent : List Control
  accesses : List Access

/-! ## The reorder buffer -/

namespace Reorder

/-- A walk over all slots ends at the head after that. -/
def slotFuel : ℕ := maxReorderNum + 1

/-- `get_reorder_entry`. -/
def getReorderEntry (seq : ℕ) (r : Reorder) : Option (Option Slot) :=
  Links.findFrom () (fun i => r.seq i = seq) r.links slotFuel (r.links.next (.inr ()))

/-- `get_reorder_slot`. -/
def getReorderSlot (r : Reorder) : Option Slot :=
  (List.finRange maxReorderNum).find? fun i => r.len i = 0

/-- `compare_seq`. -/
def compareSeq (r : Reorder) (i j : Slot) : Bool := r.seq j < r.seq i

/-- `free_reorder_slot`. -/
def freeReorderSlot (i : Slot) (r : Reorder) : Reorder :=
  { r with seq := Function.update r.seq i 0, len := Function.update r.len i 0 }

/-- The fields of a slot that is taken. -/
def fillSlot (i : Slot) (seq len : ℕ) (raw : Mem) (start : ℕ) (r : Reorder) : Reorder :=
  { r with
    seq := Function.update r.seq i seq
    len := Function.update r.len i len
    data := Function.update r.data i (blit (r.data i) 0 raw start len) }

/-- `list_insert(&new_entry->list, &reorder_queue, compare_seq)`. -/
def insertSlot (i : Slot) (r : Reorder) : Option Reorder :=
  (Links.insertSorted i () r.compareSeq slotFuel r.links).map fun l => { r with links := l }

/-- `n` bytes of an entry have been taken; what is left keeps its place in the queue and in memory. -/
def shortenSlot (i : Slot) (n : ℕ) (r : Reorder) : Reorder :=
  { r with
    len := Function.update r.len i (r.len i - n)
    seq := Function.update r.seq i (u32 (r.seq i + n)) }

/-- `del_node(&entry->list)` and `free_reorder_slot(&entry->list)`. -/
def dropSlot (i : Slot) (r : Reorder) : Reorder :=
  freeReorderSlot i { r with links := Links.delNode (.inl i) r.links }

end Reorder

/-! ## The rounds -/

namespace Receiver

variable (s : Receiver)

def access (a : Access) : Receiver := { s with accesses := s.accesses ++ [a] }

/-- `send_control_packet` uses up the header of the last frame. -/
def sendControlPacket (c : Control) : Receiver :=
  { s with sent := s.sent ++ [c], hasValidHeader := false }

/-- `insert_reorder_packet` with the data at `raw_buffer + start`. -/
def insertReorderPacket (seq len : ℕ) (raw : Mem) (start : ℕ) : Option Receiver :=
  if seq < s.nextExpectSeq then some s
  else if u32 (s.nextExpectSeq + rtpWindowSize) < seq then some s
  else (s.reorder.getReorderEntry seq).bind fun found =>
    if found.isSome then some s
    else
      match s.reorder.getReorderSlot with
      | none => some s
      | some i =>
        ((s.reorder.fillSlot i seq len raw start).insertSlot i).map fun r =>
          ({ s with reorder := r }.access (.raw start len)).access (.store i len)

/-- The entry that is expected is copied to the user. -/
def recvEntry (now : ℕ) (i : Slot) (k : RecvCall) : Receiver :=
  let n := k.copyLen (s.reorder.len i)
  let s' := (s.access (.load i n)).access (.user k.received n)
  let s' := s'.sendControlPacket (.ack (u32 (s.nextExpectSeq + s.reorder.len i)))
  { s' with
    buffer := blit s.buffer k.received.toNat (s.reorder.data i) 0 n
    nextExpectSeq := u32 (s.nextExpectSeq + n)
    call := some { k with received := k.received + n, lastProgressTime := now }
    reorder := if n < s.reorder.len i then s.reorder.shortenSlot i n else s.reorder.dropSlot i }

/-- The sender is asked for the packet that is expected. -/
def requestResend (now : ℕ) (k : RecvCall) : Receiver :=
  { s.sendControlPacket (.rsd s.nextExpectSeq) with call := some { k with lastRsdTime := now } }

/-- The device has no packet. -/
def recvNothing (now : ℕ) (k : RecvCall) : Receiver :=
  if recvTimeoutTicks < ticksSince k.lastProgressTime now then { s with call := none }
  else if rsdTimeoutTicks < ticksSince k.lastRsdTime now then s.requestResend now k
  else s

/-- The header of a data packet is kept for the next packet that is sent. -/
def saveHeader (p : Packet) : Receiver :=
  if s.hasValidHeader then s
  else
    { s.access (.raw 0 rtpOffset) with
      lastValidHeader := blit s.lastValidHeader 0 p.raw 0 rtpOffset, hasValidHeader := true }

/-- The beginning of the packet that is expected goes to the user. -/
def copyData (p : Packet) (k : RecvCall) : Receiver :=
  let n := k.copyLen p.len
  let s' := (s.access (.raw (rtpOffset + rtpHeader) n)).access (.user k.received n)
  let s' := s'.sendControlPacket (.ack (u32 (s.nextExpectSeq + p.len)))
  { s' with
    buffer := blit s.buffer k.received.toNat p.raw (rtpOffset + rtpHeader) n
    nextExpectSeq := u32 (s.nextExpectSeq + n)
    call := some { k with received := k.received + n } }

/-- The packet that is expected. -/
def recvExpected (p : Packet) (k : RecvCall) : Option Receiver :=
  let n := k.copyLen p.len
  if n < p.len then
    (s.copyData p k).insertReorderPacket (s.copyData p k).nextExpectSeq (p.len - n) p.raw
      (rtpOffset + rtpHeader + n)
  else some (s.copyData p k)

/-- A data packet. -/
def recvData (now : ℕ) (p : Packet) (k : RecvCall) : Option Receiver :=
  let s := s.saveHeader p
  if p.seq = s.nextExpectSeq then s.recvExpected p k
  else if s.nextExpectSeq < p.seq then
    (s.insertReorderPacket p.seq p.len p.raw (rtpOffset + rtpHeader)).map fun s' =>
      s'.requestResend now k
  else some (s.sendControlPacket (.ack s.nextExpectSeq))

/-- One round of the loop of `do_net_recv_stream`. -/
def recvRound (now : ℕ) (poll : Option Packet) (k : RecvCall) : Option Receiver :=
  let s := { s with accesses := [] }
  if k.received < k.wanted then
    (s.reorder.getReorderEntry s.nextExpectSeq).bind fun found =>
      match found, poll with
      | some i, _ => some (s.recvEntry now i k)
      | none, none => some (s.recvNothing now k)
      | none, some p =>
        if p.length < rtpOffset + rtpHeader then some s
        else
          let s := s.access (.raw rtpOffset rtpHeader)
          if p.isData then s.recvData now p k else some s
  else some { s with call := none }

/-- A call starts when no other is going on. -/
def step : Act → Option Receiver
  | .recv wanted now => if s.call.isSome then none else some { s with call := some ⟨wanted, 0, 0, now⟩ }
  | .round now poll => s.call.bind fun k => s.recvRound now poll k
  | .reset => if s.call.isSome then none else some { s with nextExpectSeq := 0 }

def next (a : Act) : Receiver := (s.step a).getD s

end Receiver

/-- The state after `init_stream`. -/
def initReceiver : Receiver where
  reorder := ⟨⟨id, id⟩, fun _ => 0, fun _ => 0, fun _ _ => 0#8⟩
  nextExpectSeq := 0
  hasValidHeader := false
  lastValidHeader _ := 0#8
  call := none
  buffer _ := 0#8
  sent := []
  accesses := []

/-- A data packet with `len` bytes of data, as its header says, in a frame of `length` bytes. -/
def dataPacket (length seq len : ℕ) : Packet where
  length := length
  raw i :=
    if i = rtpOffset then rtpMagic
    else if i = rtpOffset + 1 then rtpDat
    else if i = rtpOffset + 2 then BitVec.ofNat 8 (len / 2 ^ 8)
    else if i = rtpOffset + 3 then BitVec.ofNat 8 len
    else if i = rtpOffset + 6 then BitVec.ofNat 8 (seq / 2 ^ 8)
    else if i = rtpOffset + 7 then BitVec.ofNat 8 seq
    else 0#8

/-! ## What a round does -/

variable {s s' : Receiver} {now : ℕ} {poll : Option Packet} {k : RecvCall} {p : Packet} {i : Slot}

@[simp] theorem saveHeader_reorder : (s.saveHeader p).reorder = s.reorder := by
  unfold Receiver.saveHeader
  split_ifs <;> rfl

@[simp] theorem saveHeader_nextExpectSeq : (s.saveHeader p).nextExpectSeq = s.nextExpectSeq := by
  unfold Receiver.saveHeader
  split_ifs <;> rfl

@[simp] theorem saveHeader_call : (s.saveHeader p).call = s.call := by
  unfold Receiver.saveHeader
  split_ifs <;> rfl

/-- A frame with the number is stored: it is in the window, no entry has the number and a slot is free. -/
def WouldStore (nextExpectSeq seq : ℕ) (r : Reorder) : Prop :=
  nextExpectSeq ≤ seq ∧ seq ≤ u32 (nextExpectSeq + rtpWindowSize) ∧ r.getReorderEntry seq = some none ∧
    r.getReorderSlot ≠ none

instance (nextExpectSeq seq : ℕ) (r : Reorder) : Decidable (WouldStore nextExpectSeq seq r) :=
  inferInstanceAs (Decidable (_ ∧ _ ∧ _ ∧ _))

/-- The queue with a new entry in slot `i` and new pointers. -/
def Reorder.stored (i : Slot) (l : Links Slot Unit) (seq len : ℕ) (raw : Mem) (start : ℕ) (r : Reorder) :
    Reorder := { r.fillSlot i seq len raw start with links := l }

/-- `insert_reorder_packet` has stored the packet in slot `i`. -/
def Receiver.stored (i : Slot) (l : Links Slot Unit) (seq len : ℕ) (raw : Mem) (start : ℕ)
    (s : Receiver) : Receiver :=
  ({ s with reorder := s.reorder.stored i l seq len raw start }.access (.raw start len)).access
    (.store i len)

/-- `list_insert` gives the new entry in slot `i` the pointers `l`. -/
def Reorder.Inserts (i : Slot) (l : Links Slot Unit) (seq len : ℕ) (raw : Mem) (start : ℕ) (r : Reorder) :
    Prop :=
  r.getReorderSlot = some i ∧
    (r.fillSlot i seq len raw start).insertSlot i = some (r.stored i l seq len raw start)

/-- Where one walk gets to the end of the queue, `insert_reorder_packet` does, too. -/
theorem insertReorderPacket_cases {n : ℕ} (h : s.reorder.getReorderEntry n = some none)
    (seq len : ℕ) (raw : Mem) (start : ℕ) :
    (¬ WouldStore s.nextExpectSeq seq s.reorder ∧
      s.insertReorderPacket seq len raw start = some s) ∨
    ∃ i l, WouldStore s.nextExpectSeq seq s.reorder ∧ s.reorder.Inserts i l seq len raw start ∧
      s.insertReorderPacket seq len raw start = some (s.stored i l seq len raw start) := by
  unfold Receiver.insertReorderPacket
  by_cases h1 : seq < s.nextExpectSeq
  · rw [if_pos h1]
    exact Or.inl ⟨fun hw => absurd h1 (Nat.not_lt.mpr hw.1), rfl⟩
  by_cases h2 : u32 (s.nextExpectSeq + rtpWindowSize) < seq
  · rw [if_neg h1, if_pos h2]
    exact Or.inl ⟨fun hw => absurd h2 (Nat.not_lt.mpr hw.2.1), rfl⟩
  rw [if_neg h1, if_neg h2]
  cases h3 : s.reorder.getReorderEntry seq with
  | none => exact absurd h3 (Links.findFrom_ends h _).1
  | some found =>
    rw [Option.bind_some]
    cases found with
    | some j =>
      refine Or.inl ⟨fun hw => ?_, rfl⟩
      have := h3.symm.trans hw.2.2.1
      cases this
    | none =>
      cases h4 : s.reorder.getReorderSlot with
      | none => exact Or.inl ⟨fun hw => hw.2.2.2 h4, rfl⟩
      | some i =>
        refine Or.inr ?_
        -- the pointers are still as they were for the walk that came to the end
        cases h5 : Links.insertSorted i () (s.reorder.fillSlot i seq len raw start).compareSeq
            Reorder.slotFuel s.reorder.links with
        | none =>
          have h5 := Option.map_eq_none_iff.mp h5
          exact absurd h5 (Links.findFrom_ends h _).2
        | some l =>
          have hins : (s.reorder.fillSlot i seq len raw start).insertSlot i =
              some (s.reorder.stored i l seq len raw start) := by
            show (Links.insertSorted i () _ _ s.reorder.links).map _ = _
            rw [h5]
            rfl
          refine ⟨i, l, ⟨Nat.le_of_not_lt h1, Nat.le_of_not_lt h2, h3, ?_⟩, ⟨h4, hins⟩, ?_⟩
          · rw [h4]
            exact Option.some_ne_none i
          · rw [if_neg (by decide)]
            show Option.map _ _ = _
            rw [hins]
            rfl

/-- The end of the packet that is expected is stored. -/
def EndStored (s : Receiver) (k : RecvCall) (p : Packet) : Prop :=
  k.copyLen p.len < p.len ∧
    WouldStore (u32 (s.nextExpectSeq + k.copyLen p.len)) (u32 (s.nextExpectSeq + k.copyLen p.len)) s.reorder

instance (s : Receiver) (k : RecvCall) (p : Packet) : Decidable (EndStored s k p) :=
  inferInstanceAs (Decidable (_ ∧ _))

/-- The user has got the beginning of the packet, and its end is in slot `i`. -/
def Receiver.split (i : Slot) (l : Links Slot Unit) (p : Packet) (k : RecvCall) (s : Receiver) : Receiver :=
  (s.copyData p k).stored i l (u32 (s.nextExpectSeq + k.copyLen p.len)) (p.len - k.copyLen p.len) p.raw
    (rtpOffset + rtpHeader + k.copyLen p.len)

/-- A data packet is expected, and its end is stored or not; it comes too early, and is stored or not; or
it is old. -/
theorem recvData_cases {n : ℕ} (h : s.reorder.getReorderEntry n = some none) (now : ℕ) (p : Packet)
    (k : RecvCall) :
    p.seq = s.nextExpectSeq ∧
      (¬ EndStored s k p ∧ s.recvData now p k = some ((s.saveHeader p).copyData p k) ∨
      ∃ i l, EndStored s k p ∧
        s.reorder.Inserts i l (u32 (s.nextExpectSeq + k.copyLen p.len)) (p.len - k.copyLen p.len) p.raw
          (rtpOffset + rtpHeader + k.copyLen p.len) ∧
        s.recvData now p k = some ((s.saveHeader p).split i l p k)) ∨
    s.nextExpectSeq < p.seq ∧
      (¬ WouldStore s.nextExpectSeq p.seq s.reorder ∧
        s.recvData now p k = some ((s.saveHeader p).requestResend now k) ∨
      ∃ i l, WouldStore s.nextExpectSeq p.seq s.reorder ∧
        s.reorder.Inserts i l p.seq p.len p.raw (rtpOffset + rtpHeader) ∧
        s.recvData now p k =
          some (((s.saveHeader p).stored i l p.seq p.len p.raw (rtpOffset + rtpHeader)).requestResend now k)) ∨
    p.seq < s.nextExpectSeq ∧
      s.recvData now p k = some ((s.saveHeader p).sendControlPacket (.ack s.nextExpectSeq)) := by
  have hr : (s.saveHeader p).reorder = s.reorder := saveHeader_reorder
  have hn : (s.saveHeader p).nextExpectSeq = s.nextExpectSeq := saveHeader_nextExpectSeq
  unfold Receiver.recvData Receiver.split EndStored
  generalize s.saveHeader p = s0 at *
  rw [← hr] at h ⊢
  rw [← hn]
  rcases lt_trichotomy p.seq s0.nextExpectSeq with hlt | heq | hgt
  · refine Or.inr (Or.inr ⟨hlt, ?_⟩)
    simp only [if_neg hlt.ne, if_neg hlt.le.not_gt]
  · refine Or.inl ⟨heq, ?_⟩
    simp only [if_pos heq]
    unfold Receiver.recvExpected
    by_cases hlen : k.copyLen p.len < p.len
    · simp only [if_pos hlen]
      rcases insertReorderPacket_cases (s := s0.copyData p k) h (s0.copyData p k).nextExpectSeq
        (p.len - k.copyLen p.len) p.raw (rtpOffset + rtpHeader + k.copyLen p.len) with
        ⟨hw, e⟩ | ⟨i, l, hw, hi, e⟩
      · exact Or.inl ⟨fun hc => hw hc.2, e⟩
      · exact Or.inr ⟨i, l, ⟨hlen, hw⟩, hi, e⟩
    · simp only [if_neg hlen]
      exact Or.inl ⟨fun hc => hlen hc.1, trivial⟩
  · refine Or.inr (Or.inl ⟨hgt, ?_⟩)
    simp only [if_neg hgt.ne', if_pos hgt]
    rcases insertReorderPacket_cases h p.seq p.len p.raw (rtpOffset + rtpHeader) with
      ⟨hw, e⟩ | ⟨i, l, hw, hi, e⟩
    · exact Or.inl ⟨hw, by rw [e]; rfl⟩
    · exact Or.inr ⟨i, l, hw, hi, by rw [e]; rfl⟩

/-- A round that leaves the stream as it is: there is no data packet. -/
structure Ignored (poll : Option Packet) (k : RecvCall) (s s' : Receiver) : Prop where
  reorder : s'.reorder = s.reorder
  nextExpectSeq : s'.nextExpectSeq = s.nextExpectSeq
  call : ∀ k' ∈ s'.call, k'.received = k.received ∧ k'.wanted = k.wanted
  accesses : ∀ x ∈ s'.accesses, x = .raw rtpOffset rtpHeader ∧ ∃ p ∈ poll, rtpOffset + rtpHeader ≤ p.length

/-- What a round does: it ends the call, its walk has no end, it takes an entry, it does nothing to the
stream, or it has a data packet. -/
theorem recvRound_cases (s : Receiver) (now : ℕ) (poll : Option Packet) {k : RecvCall} (hk : s.call = some k) :
    (¬ k.received < k.wanted ∧
      s.recvRound now poll k = some { s with accesses := [], call := none }) ∨
    k.received < k.wanted ∧
      (s.reorder.getReorderEntry s.nextExpectSeq = none ∧ s.recvRound now poll k = none ∨
      (∃ i, s.reorder.getReorderEntry s.nextExpectSeq = some (some i) ∧
        s.recvRound now poll k = some ({ s with accesses := [] }.recvEntry now i k)) ∨
      s.reorder.getReorderEntry s.nextExpectSeq = some none ∧
        ((∀ p ∈ poll, p.isData = false) ∧ (∃ s', s.recvRound now poll k = some s' ∧ Ignored poll k s s') ∨
        ∃ p, poll = some p ∧ p.isData = true ∧ s.recvRound now poll k =
          ({ s with accesses := [] }.access (.raw rtpOffset rtpHeader)).recvData now p k)) := by
  unfold Receiver.recvRound
  by_cases hr : k.received < k.wanted
  · refine Or.inr ⟨hr, ?_⟩
    rw [if_pos hr]
    cases he : s.reorder.getReorderEntry s.nextExpectSeq with
    | none => exact Or.inl ⟨rfl, rfl⟩
    | some found =>
      rw [Option.bind_some]
      cases found with
      | some i => exact Or.inr (Or.inl ⟨i, rfl, rfl⟩)
      | none =>
        refine Or.inr (Or.inr ⟨rfl, ?_⟩)
        cases poll with
        | none =>
          refine Or.inl ⟨nofun, _, rfl, ?_⟩
          unfold Receiver.recvNothing
          split_ifs
          · exact ⟨rfl, rfl, nofun, nofun⟩
          · refine ⟨rfl, rfl, fun k' hk' => ?_, nofun⟩
            cases hk'
            exact ⟨rfl, rfl⟩
          · refine ⟨rfl, rfl, fun k' hk' => ?_, nofun⟩
            obtain rfl := Option.some.inj (hk.symm.trans hk')
            exact ⟨rfl, rfl⟩
        | some p =>
          have hcall : ∀ k' ∈ s.call, k'.received = k.received ∧ k'.wanted = k.wanted := by
            intro k' hk'
            obtain rfl := Option.some.inj (hk.symm.trans hk')
            exact ⟨rfl, rfl⟩
          by_cases hp : p.length < rtpOffset + rtpHeader
          · refine Or.inl ⟨fun p' hp' => ?_, _, if_pos hp, ⟨rfl, rfl, hcall, nofun⟩⟩
            cases hp'
            simp [Packet.isData, hp]
          · simp only [if_neg hp]
            cases hd : p.isData with
            | true => exact Or.inr ⟨p, rfl, hd, if_pos rfl⟩
            | false =>
              refine Or.inl ⟨fun p' hp' => ?_, _, if_neg Bool.false_ne_true,
                ⟨rfl, rfl, hcall, fun x hx => ?_⟩⟩
              · cases hp'
                exact hd
              · exact ⟨List.mem_singleton.mp hx, p, rfl, Nat.le_of_not_lt hp⟩
  · rw [if_neg hr]
    exact Or.inl ⟨hr, rfl⟩

end RiscvKernel.Net
