import RiscvKernel.Lib.Run
import RiscvKernel.Lib.Slots
import RiscvKernel.Drivers.E1000

/-!
# The descriptor rings

The driver and the card run side by side: an event is the start of a call, one step of the call that
is going on, or a step of the card, which sends the packet of a transmit descriptor or stores a
received frame. Packet number `k` is in the transmit descriptor `k % 64` from the moment the tail is
moved behind it until the card has sent it, and frame number `k` is in the receive descriptor
`k % 64` until it is polled. So nothing is lost, repeated or out of order (`rings_exact`).
-/

namespace RiscvKernel.Drivers

open Lib Run

/-! ## The system -/

/-- The card and the calls that are going on. The rest records what has happened: `frag` holds the
descriptors the card has taken without the end of their packet, `wire` the packets sent, `accepted`
those for which `e1000_transmit` has returned a number other than zero, `received` the frames the
card has stored and `polled` the results of `e1000_poll` other than zero, each with the bytes in the
caller's buffer. -/
structure Rings where
  e : E1000
  tx : Option TxCall
  rx : Option RxCall
  frag : List Byte
  wire : List (List Byte)
  accepted : List (List Byte)
  received : List (List Byte)
  polled : List (ℕ × Option (List Byte))

inductive Event
  | transmit (txpacket : Mem) (length : ℤ)
  | transmitStep
  | poll (rxbuffer : Option Mem)
  | pollStep
  | send
  | receive (frame : List Byte) (v : RxDesc)

/-- What `e1000_transmit` accepts: the packet, truncated to the size of a buffer. -/
def payload (txpacket : Mem) (length : ℤ) : List Byte :=
  bytes txpacket 0 (min length txPktSize).toNat

/-- The call has come to `c`. When that is its end it returns. -/
def Rings.setTx (y : Rings) (e : E1000) : TxCall → Rings
  | .done p n r =>
    { y with
      e := e, tx := none, accepted := if r ≠ 0 then y.accepted ++ [payload p n] else y.accepted }
  | c => { y with e := e, tx := some c }

def Rings.setRx (y : Rings) (e : E1000) : RxCall → Rings
  | .done b r =>
    { y with
      e := e, rx := none
      polled := if r ≠ 0 then y.polled ++ [(r, b.map fun m => bytes m 0 r)] else y.polled }
  | c => { y with e := e, rx := some c }

/-- The card sends the data of the descriptor at the head, or keeps it until the packet ends. -/
def Rings.send (y : Rings) : Rings :=
  let data := y.frag ++ y.e.txData y.e.tdh
  if (y.e.txDescArray y.e.tdh).cmd &&& txdCmdEop = 0 then
    { y with e := y.e.consume, frag := data }
  else { y with e := y.e.consume, frag := [], wire := y.wire ++ [data] }

def Rings.step (y : Rings) : Event → Rings
  | .transmit p n => { y with tx := some (.entry p n) }
  | .transmitStep =>
    match y.tx with
    | some c => y.setTx (Drivers.transmitStep y.e c).1 (Drivers.transmitStep y.e c).2
    | none => y
  | .poll b => { y with rx := some (.entry b) }
  | .pollStep =>
    match y.rx with
    | some c => y.setRx (Drivers.pollStep y.e c).1 (Drivers.pollStep y.e c).2
    | none => y
  | .send => y.send
  | .receive f v => { y with e := y.e.store f v, received := y.received ++ [f] }

/-- When an event can happen. The driver makes one call of each function at a time, with a positive
length. The card uses the descriptors from the head up to the tail when it is enabled, and frames
have at least a byte and fit in a buffer. -/
def Event.Ok (y : Rings) : Event → Prop
  | .transmit _ n => y.tx = none ∧ 1 ≤ n
  | .transmitStep => y.tx ≠ none
  | .poll _ => y.rx = none
  | .pollStep => y.rx ≠ none
  | .send => y.e.tctl &&& tctlEn ≠ 0 ∧ y.e.tdh ≠ y.e.tdt
  | .receive f v => y.e.rctl &&& rctlEn ≠ 0 ∧ y.e.rdh ≠ y.e.rdt ∧ 1 ≤ f.length ∧
      f.length ≤ rxPktSize ∧ v.status &&& rxdStatDd ≠ 0

instance (y : Rings) (v : Event) : Decidable (v.Ok y) := by
  cases v <;> unfold Event.Ok <;> infer_instance

/-- After `e1000_init`. -/
def Rings.start (e : E1000) : Rings where
  e := e1000Init e
  tx := none
  rx := none
  frag := []
  wire := []
  accepted := []
  received := []
  polled := []

/-! ## Calls without the card -/

/-- The steps of a call, when nothing comes between, are the function. -/
theorem transmitStep_alone (e : E1000) (p : Mem) (n : ℤ) :
    let x := (fun z : E1000 × TxCall => transmitStep z.1 z.2)^[5] (e, .entry p n)
    x = ((e1000Transmit e p n).2, .done p n (e1000Transmit e p n).1) := by
  unfold e1000Transmit
  simp only [Function.iterate_succ, Function.iterate_zero, Function.comp_apply, id_eq, transmitStep]
  split_ifs
  · rfl
  · rfl

theorem pollStep_alone (e : E1000) (b : Option Mem) :
    let x := (fun z : E1000 × RxCall => pollStep z.1 z.2)^[5] (e, .entry b)
    x = ((e1000Poll e b).2.2, .done (e1000Poll e b).2.1 (e1000Poll e b).1) := by
  unfold e1000Poll
  simp only [Function.iterate_succ, Function.iterate_zero, Function.comp_apply, id_eq, pollStep]
  split_ifs
  · rfl
  · rfl

/-! ## Transmission -/

/-- Transmit descriptor `i` and its buffer hold a packet. -/
structure TxHolds (e : E1000) (i : ℕ) (p : List Byte) : Prop where
  data : e.txData i = p
  addr : (e.txDescArray i).addr = txPktSize * i
  length : (e.txDescArray i).length ≤ txPktSize
  eop : (e.txDescArray i).cmd &&& txdCmdEop ≠ 0

theorem clip_eq (n : ℤ) : clip n = min n txPktSize := by
  unfold clip
  split_ifs <;> simp only [txPktSize] at * <;> omega

theorem bytes_congr {m m' : Mem} {a a' n : ℕ} (h : ∀ i < n, m (a + i) = m' (a' + i)) :
    bytes m a n = bytes m' a' n := by
  unfold bytes
  exact List.map_congr_left fun i hi => h i (List.mem_range.mp hi)

@[simp] theorem bytes_length (m : Mem) (a n : ℕ) : (bytes m a n).length = n := by
  unfold bytes; rw [List.length_map, List.length_range]

theorem getElem_bytes {m : Mem} {a n i : ℕ} (h : i < (bytes m a n).length) :
    (bytes m a n)[i] = m (a + i) := by
  simp [bytes]

/-- The packets are unchanged where the descriptor and the buffer are. -/
theorem TxHolds.congr {e e' : E1000} {i : ℕ} {p : List Byte} (h : TxHolds e i p)
    (ha : (e'.txDescArray i).addr = (e.txDescArray i).addr)
    (hl : (e'.txDescArray i).length = (e.txDescArray i).length)
    (hc : (e'.txDescArray i).cmd = (e.txDescArray i).cmd)
    (hb : ∀ k < txPktSize, e'.txPktBuffer (txPktSize * i + k) = e.txPktBuffer (txPktSize * i + k)) :
    TxHolds e' i p := by
  refine ⟨?_, ha.trans h.addr, hl ▸ h.length, hc ▸ h.eop⟩
  rw [← h.data]
  unfold E1000.txData
  rw [ha, hl]
  refine bytes_congr fun k hk => ?_
  rw [h.addr]
  exact hb k (lt_of_lt_of_le hk h.length)

/-- The copy for descriptor `t` does not reach the buffer of another one. -/
theorem TxHolds.copyPacket {e : E1000} {i t : ℕ} {p : List Byte} (h : TxHolds e i p) (hi : i ≠ t)
    (m : Mem) (n : ℤ) : TxHolds (copyPacket e m n t) i p := by
  have hc := clip_eq n
  refine h.congr rfl rfl rfl fun k hk => blit_out ?_
  simp only [txPktSize] at *
  rcases Nat.lt_or_gt_of_ne hi with hlt | hgt
  · have : 2048 * (i + 1) ≤ 2048 * t := Nat.mul_le_mul_left _ hlt
    omega
  · have : 2048 * (t + 1) ≤ 2048 * i := Nat.mul_le_mul_left _ hgt
    omega

theorem TxHolds.fillDesc {e : E1000} {i t : ℕ} {p : List Byte} (h : TxHolds e i p) (hi : i ≠ t)
    (n : ℤ) : TxHolds (fillDesc e n t) i p := by
  have e1 : (Drivers.fillDesc e n t).txDescArray i = e.txDescArray i := Function.update_of_ne hi _ _
  exact h.congr (by rw [e1]) (by rw [e1]) (by rw [e1]) fun _ _ => rfl

/-- The descriptor that has just been filled. -/
theorem txHolds_fillDesc {e : E1000} {t : ℕ} {p : List Byte} {n : ℤ} (hn : 1 ≤ n)
    (hb : bytes e.txPktBuffer (txPktSize * t) (clip n).toNat = p) :
    TxHolds (fillDesc e n t) t p := by
  have hcl := clip_eq n
  simp only [txPktSize] at hcl
  have hd : (Drivers.fillDesc e n t).txDescArray t = _ := Function.update_self ..
  refine ⟨?_, by rw [hd], ?_, ?_⟩
  · unfold E1000.txData
    rw [hd, ← hb]
    dsimp only
    rw [Nat.mod_eq_of_lt (by omega)]
    rfl
  · rw [hd]
    dsimp only [txPktSize]
    omega
  · rw [hd]
    show (txdCmdEop ||| txdCmdRs) &&& txdCmdEop ≠ 0
    decide

theorem txHolds_consume {e : E1000} {i : ℕ} {p : List Byte} (h : TxHolds e i p) :
    TxHolds e.consume i p := by
  have e1 : ∀ f : TxDesc → ℕ, (∀ d s, f { d with status := s } = f d) →
      f (e.consume.txDescArray i) = f (e.txDescArray i) := by
    intro f hf
    unfold E1000.consume
    dsimp only
    rw [Function.update_apply]
    by_cases hi : i = e.tdh
    · rw [if_pos hi, hf, hi]
    · rw [if_neg hi]
  exact h.congr (e1 TxDesc.addr fun _ _ => rfl) (e1 TxDesc.length fun _ _ => rfl)
    (e1 TxDesc.cmd fun _ _ => rfl) fun _ _ => rfl

/-- What is known of a call at each of its steps. -/
def TxCallOk (y : Rings) : TxCall → Prop
  | .entry _ n => 1 ≤ n
  | .tail _ n t => 1 ≤ n ∧ t = y.e.tdt
  | .room _ n t => 1 ≤ n ∧ t = y.e.tdt ∧ y.accepted.length + 1 < y.wire.length + txDescs
  | .copied p n t => (1 ≤ n ∧ t = y.e.tdt ∧ y.accepted.length + 1 < y.wire.length + txDescs) ∧
      bytes y.e.txPktBuffer (txPktSize * t) (clip n).toNat = payload p n
  | .filled p n t => (1 ≤ n ∧ t = y.e.tdt ∧ y.accepted.length + 1 < y.wire.length + txDescs) ∧
      TxHolds y.e t (payload p n)
  | .done _ _ _ => False

/-- The transmit ring. -/
structure TxInv (y : Rings) : Prop where
  tdlen : y.e.tdlen = txDescs * descSize
  tdh : y.e.tdh = y.wire.length % txDescs
  tdt : y.e.tdt = y.accepted.length % txDescs
  frag : y.frag = []
  sent : y.wire <+: y.accepted
  room : y.accepted.length < y.wire.length + txDescs
  window : Window txDescs (TxHolds y.e) y.wire.length y.accepted
  call : ∀ c, y.tx = some c → TxCallOk y c

section Transmit

variable {y : Rings} (h : TxInv y)

include h

/-- The transmit ring is not touched. -/
theorem TxInv.congr {y' : Rings} (h1 : y'.e.tdlen = y.e.tdlen) (h2 : y'.e.tdh = y.e.tdh)
    (h3 : y'.e.tdt = y.e.tdt) (h4 : y'.e.txDescArray = y.e.txDescArray)
    (h5 : y'.e.txPktBuffer = y.e.txPktBuffer) (h6 : y'.frag = y.frag) (h7 : y'.wire = y.wire)
    (h8 : y'.accepted = y.accepted) (h9 : y'.tx = y.tx) : TxInv y' := by
  have hH : ∀ i p, TxHolds y.e i p → TxHolds y'.e i p := fun i p hp =>
    hp.congr (by rw [h4]) (by rw [h4]) (by rw [h4]) fun _ _ => by rw [h5]
  refine ⟨h1.trans h.tdlen, ?_, ?_, h6.trans h.frag, ?_, ?_, ?_, fun c hc => ?_⟩
  · rw [h2, h7, h.tdh]
  · rw [h3, h8, h.tdt]
  · rw [h7, h8]; exact h.sent
  · rw [h7, h8]; exact h.room
  · rw [h7, h8]; exact h.window.congr fun _ _ _ _ => hH _ _
  · have hc' := h.call c (h9 ▸ hc)
    cases c <;> simp only [TxCallOk, h3, h5, h7, h8] at hc' ⊢
    case filled p n t => exact ⟨hc'.1, hH _ _ hc'.2⟩
    all_goals exact hc'

/-- The slot of the next packet is not in the window. -/
theorem TxInv.slot_ne {k : ℕ} (h1 : y.wire.length ≤ k) (h2 : k < y.accepted.length) :
    k % txDescs ≠ y.e.tdt := by
  rw [h.tdt]
  exact Lib.slot_ne h1 h2 h.room

/-- The card sends a packet. -/
theorem TxInv.send (hne : y.e.tdh ≠ y.e.tdt) : TxInv y.send := by
  have hlt : y.wire.length < y.accepted.length := by
    refine lt_of_le_of_ne h.sent.length_le fun e => hne ?_
    rw [h.tdh, h.tdt, e]
  have hx := h.window.head hlt
  rw [← h.tdh] at hx
  have e1 : y.send = { y with
      e := y.e.consume, frag := [], wire := y.wire ++ [y.accepted[y.wire.length]] } := by
    unfold Rings.send
    dsimp only
    rw [if_neg hx.eop, h.frag, List.nil_append, hx.data]
  have hpre : y.wire ++ [y.accepted[y.wire.length]] <+: y.accepted := by
    rw [List.prefix_iff_eq_take, List.length_append, List.length_singleton,
      List.take_add_one, ← List.prefix_iff_eq_take.mp h.sent, List.getElem?_eq_getElem hlt]
    rfl
  rw [e1]
  refine ⟨h.tdlen, ?_, h.tdt, rfl, hpre, ?_, ?_, fun c hc => ?_⟩
  · show nextDesc y.e.tdh y.e.tdlen = _
    unfold nextDesc
    rw [h.tdlen, h.tdh, List.length_append]
    exact succ_slot _ _
  · have := h.room
    simp only [List.length_append, List.length_singleton]
    omega
  · rw [List.length_append]
    exact h.window.pop.congr fun _ _ _ _ hp => txHolds_consume hp
  · have hc' := h.call c hc
    cases c <;> simp only [TxCallOk, List.length_append, List.length_singleton] at hc' ⊢
    case entry => exact hc'
    case tail => exact hc'
    case room => exact ⟨hc'.1, hc'.2.1, by omega⟩
    case copied => exact ⟨⟨hc'.1.1, hc'.1.2.1, by omega⟩, hc'.2⟩
    case filled => exact ⟨⟨hc'.1.1, hc'.1.2.1, by omega⟩, txHolds_consume hc'.2⟩

/-- One step of `e1000_transmit`. -/
theorem TxInv.transmitStep {c : TxCall} (hc : y.tx = some c) :
    TxInv (y.setTx (transmitStep y.e c).1 (transmitStep y.e c).2) := by
  have hok := h.call c hc
  have hroom := h.room
  have hle := h.sent.length_le
  cases c with
  | entry p n =>
    refine ⟨h.tdlen, h.tdh, h.tdt, h.frag, h.sent, h.room, h.window, fun c hc => ?_⟩
    cases hc
    exact ⟨hok, rfl⟩
  | tail p n t =>
    obtain ⟨hn, rfl⟩ := hok
    unfold Drivers.transmitStep
    dsimp only
    split_ifs with hfull
    · refine ⟨h.tdlen, h.tdh, h.tdt, h.frag, h.sent, h.room, h.window, fun c hc => ?_⟩
      cases hc
    · refine ⟨h.tdlen, h.tdh, h.tdt, h.frag, h.sent, h.room, h.window, fun c hc => ?_⟩
      cases hc
      refine ⟨hn, rfl, ?_⟩
      -- the ring would be full otherwise
      rw [h.tdh, h.tdt, succ_slot] at hfull
      show y.accepted.length + 1 < y.wire.length + txDescs
      simp only [txDescs] at *
      omega
  | room p n t =>
    obtain ⟨hn, rfl, hr⟩ := hok
    refine ⟨h.tdlen, h.tdh, h.tdt, h.frag, h.sent, h.room, ?_, fun c hc => ?_⟩
    · exact h.window.congr fun k x h1 h2 hx => hx.copyPacket (h.slot_ne h1 h2) p n
    · cases hc
      refine ⟨⟨hn, rfl, hr⟩, ?_⟩
      unfold payload
      rw [← clip_eq]
      exact bytes_congr fun k hk => by rw [Nat.zero_add]; exact (blit_in hk).trans (by rw [Nat.zero_add])
  | copied p n t =>
    obtain ⟨⟨hn, rfl, hr⟩, hb⟩ := hok
    refine ⟨h.tdlen, h.tdh, h.tdt, h.frag, h.sent, h.room, ?_, fun c hc => ?_⟩
    · exact h.window.congr fun k x h1 h2 hx => hx.fillDesc (h.slot_ne h1 h2) n
    · cases hc
      exact ⟨⟨hn, rfl, hr⟩, txHolds_fillDesc hn hb⟩
  | filled p n t =>
    obtain ⟨⟨hn, rfl, hr⟩, hx⟩ := hok
    have hcl := clip_eq n
    simp only [txPktSize] at hcl
    have hne : clip n ≠ 0 := by omega
    unfold Drivers.transmitStep Rings.setTx
    dsimp only
    rw [if_pos hne]
    refine ⟨h.tdlen, h.tdh, ?_, h.frag, h.sent.trans (List.prefix_append _ _), ?_, ?_,
      fun c hc => by cases hc⟩
    · show (y.e.tdt + 1) % txDescs = _
      rw [h.tdt, List.length_append]
      exact succ_slot _ _
    · simp only [List.length_append, List.length_singleton]
      omega
    · refine h.window.push (fun k x _ _ hx => hx.congr rfl rfl rfl fun _ _ => rfl) ?_
      rw [← h.tdt]
      exact hx.congr rfl rfl rfl fun _ _ => rfl
  | done p n r => exact hok.elim

end Transmit

/-! ## Reception -/

/-- Receive descriptor `i` and its buffer hold a frame. -/
structure RxHolds (e : E1000) (i : ℕ) (f : List Byte) : Prop where
  dd : (e.rxDescArray i).status &&& rxdStatDd ≠ 0
  length : (e.rxDescArray i).length = f.length
  data : bytes e.rxPktBuffer (rxPktSize * i) f.length = f
  pos : 1 ≤ f.length
  fits : f.length ≤ rxPktSize

theorem RxHolds.congr {e e' : E1000} {i : ℕ} {f : List Byte} (h : RxHolds e i f)
    (hd : e'.rxDescArray i = e.rxDescArray i)
    (hb : ∀ k < rxPktSize, e'.rxPktBuffer (rxPktSize * i + k) = e.rxPktBuffer (rxPktSize * i + k)) :
    RxHolds e' i f := by
  refine ⟨hd ▸ h.dd, hd ▸ h.length, ?_, h.pos, h.fits⟩
  refine Eq.trans (bytes_congr fun k hk => hb k (lt_of_lt_of_le hk h.fits)) h.data

theorem RxHolds.resetDesc {e : E1000} {i t : ℕ} {f : List Byte} (h : RxHolds e i f) (hi : i ≠ t) :
    RxHolds (resetDesc e t) i f :=
  h.congr (Function.update_of_ne hi _ _) fun _ _ => rfl

/-- The bytes of a frame that has been stored. -/
theorem bytes_store (m : Mem) (a : ℕ) (f : List Byte) :
    bytes (blit m a (fun i => f.getD i 0#8) 0 f.length) a f.length = f := by
  refine List.ext_getElem (bytes_length _ _ _) fun i h1 h2 => ?_
  rw [getElem_bytes, blit_in h2, Nat.zero_add, List.getD_eq_getElem?_getD,
    List.getElem?_eq_getElem h2, Option.getD_some]

section Store

variable {e : E1000} {f : List Byte} {v : RxDesc}
  (ha : (e.rxDescArray e.rdh).addr = rxPktSize * e.rdh)

include ha

/-- A frame is stored without touching the buffers of the other descriptors. -/
theorem RxHolds.store (hf : f.length ≤ rxPktSize) {i : ℕ} {g : List Byte} (h : RxHolds e i g)
    (hi : i ≠ e.rdh) : RxHolds (e.store f v) i g := by
  refine h.congr (Function.update_of_ne hi _ _) fun k hk => ?_
  unfold E1000.store
  dsimp only
  rw [ha]
  refine blit_out ?_
  simp only [rxPktSize] at *
  rcases Nat.lt_or_gt_of_ne hi with hlt | hgt
  · have : 2048 * (i + 1) ≤ 2048 * e.rdh := Nat.mul_le_mul_left _ hlt
    omega
  · have : 2048 * (e.rdh + 1) ≤ 2048 * i := Nat.mul_le_mul_left _ hgt
    omega

theorem rxHolds_store (h1 : 1 ≤ f.length) (hf : f.length ≤ rxPktSize)
    (hv : v.status &&& rxdStatDd ≠ 0) : RxHolds (e.store f v) e.rdh f := by
  have hd : (e.store f v).rxDescArray e.rdh =
      { v with addr := (e.rxDescArray e.rdh).addr, length := f.length } := Function.update_self ..
  refine ⟨by rw [hd]; exact hv, by rw [hd], ?_, h1, hf⟩
  rw [← ha]
  exact bytes_store _ _ _

end Store

/-- A poll has delivered a frame. -/
def Delivered (f : List Byte) (r : ℕ × Option (List Byte)) : Prop :=
  r.1 = f.length ∧ ∀ b ∈ r.2, b = f

/-- The number of frames that are not in the ring any more. -/
def Rings.taken (y : Rings) : ℕ :=
  match y.rx with
  | some (.reset _ _ _) => y.polled.length + 1
  | _ => y.polled.length

/-- What is known of a call of `e1000_poll` at each of its steps. -/
def RxCallOk (y : Rings) : RxCall → Prop
  | .entry _ => True
  | .tail _ t => t = y.e.rdt
  | .ready _ next => next = y.polled.length % rxDescs ∧ y.polled.length < y.received.length
  | .copied b next n => next = y.polled.length % rxDescs ∧
      ∃ f, y.received[y.polled.length]? = some f ∧ Delivered f (n, b.map fun m => bytes m 0 n)
  | .reset b next n => next = y.polled.length % rxDescs ∧
      (y.e.rxDescArray next).status &&& rxdStatDd = 0 ∧
      ∃ f, y.received[y.polled.length]? = some f ∧ 1 ≤ f.length ∧
        Delivered f (n, b.map fun m => bytes m 0 n)
  | .done _ _ => False

/-- The receive ring. -/
structure RxInv (y : Rings) : Prop where
  rdlen : y.e.rdlen = rxDescs * descSize
  rdh : y.e.rdh = y.received.length % rxDescs
  rdt : y.e.rdt = (y.polled.length + (rxDescs - 1)) % rxDescs
  le : y.taken ≤ y.received.length
  room : y.received.length < y.polled.length + rxDescs
  addr : ∀ i < rxDescs, (y.e.rxDescArray i).addr = rxPktSize * i
  window : Window rxDescs (RxHolds y.e) y.taken y.received
  clear : ∀ k, y.received.length ≤ k → k < y.polled.length + rxDescs →
    (y.e.rxDescArray (k % rxDescs)).status &&& rxdStatDd = 0
  polled : List.Forall₂ Delivered (y.received.take y.polled.length) y.polled
  call : ∀ c, y.rx = some c → RxCallOk y c

section Poll

variable {y : Rings} (h : RxInv y)

include h

/-- The receive ring is not touched. -/
theorem RxInv.congr {y' : Rings} (h1 : y'.e.rdlen = y.e.rdlen) (h2 : y'.e.rdh = y.e.rdh)
    (h3 : y'.e.rdt = y.e.rdt) (h4 : y'.e.rxDescArray = y.e.rxDescArray)
    (h5 : y'.e.rxPktBuffer = y.e.rxPktBuffer) (h6 : y'.received = y.received)
    (h7 : y'.polled = y.polled) (h8 : y'.rx = y.rx) : RxInv y' := by
  have ht : y'.taken = y.taken := by unfold Rings.taken; rw [h7, h8]
  refine ⟨h1.trans h.rdlen, ?_, ?_, ?_, ?_, ?_, ?_, ?_, ?_, fun c hc => ?_⟩
  · rw [h2, h6, h.rdh]
  · rw [h3, h7, h.rdt]
  · rw [ht, h6]; exact h.le
  · rw [h6, h7]; exact h.room
  · rw [h4]; exact h.addr
  · rw [ht, h6]
    exact h.window.congr fun _ _ _ _ hx => hx.congr (by rw [h4]) fun _ _ => by rw [h5]
  · rw [h4, h6, h7]; exact h.clear
  · rw [h6, h7]; exact h.polled
  · have hc' := h.call c (h8 ▸ hc)
    cases c <;> simp only [RxCallOk, h3, h4, h6, h7] at hc' ⊢ <;> exact hc'

/-- The slot after the tail is that of the first frame not polled yet. -/
theorem RxInv.next_slot : (y.e.rdt + 1) % rxDescs = y.polled.length % rxDescs := by
  rw [h.rdt, succ_slot]
  simp only [rxDescs]
  omega

theorem RxInv.polled_le : y.polled.length ≤ y.received.length := by
  have hle := h.le
  unfold Rings.taken at hle
  split at hle <;> omega

/-- When the descriptor after the tail is not done, all frames have been polled. -/
theorem RxInv.all_polled (hrx : y.taken = y.polled.length)
    (hdd : (y.e.rxDescArray ((y.e.rdt + 1) % rxDescs)).status &&& rxdStatDd = 0) :
    y.polled.length = y.received.length := by
  by_contra hne
  have hw := h.window
  rw [hrx] at hw
  have hx := hw.head (lt_of_le_of_ne h.polled_le hne)
  rw [h.next_slot] at hdd
  exact hx.dd hdd

/-- The card stores a frame. -/
theorem RxInv.receive {f : List Byte} {v : RxDesc} (hok : Event.Ok y (.receive f v)) :
    RxInv (y.step (.receive f v)) := by
  obtain ⟨-, hne, h1, hf, hv⟩ := hok
  have hpr := h.polled_le
  have hroom := h.room
  have hle := h.le
  have hlt : y.received.length + 1 < y.polled.length + rxDescs := by
    have e : y.received.length ≠ y.polled.length + (rxDescs - 1) := fun e =>
      hne (by rw [h.rdh, h.rdt, e])
    simp only [rxDescs] at *
    omega
  have htp : y.polled.length ≤ y.taken := by
    unfold Rings.taken
    split <;> omega
  have hrdh : y.e.rdh < rxDescs := by
    rw [h.rdh]
    exact Nat.mod_lt _ (by norm_num)
  have ha := h.addr _ hrdh
  -- the other descriptors are as before
  have hother : ∀ i, i ≠ y.e.rdh → (y.e.store f v).rxDescArray i = y.e.rxDescArray i :=
    fun i hi => Function.update_of_ne hi _ _
  have hself : (y.e.store f v).rxDescArray y.e.rdh = _ := Function.update_self ..
  refine ⟨h.rdlen, ?_, h.rdt, ?_, ?_, ?_, ?_, ?_, ?_, fun c hc => ?_⟩
  · show nextDesc y.e.rdh y.e.rdlen = (y.received ++ [f]).length % rxDescs
    unfold nextDesc
    rw [h.rdlen, h.rdh, List.length_append]
    exact succ_slot _ _
  · show y.taken ≤ (y.received ++ [f]).length
    rw [List.length_append]
    omega
  · show (y.received ++ [f]).length < _
    rw [List.length_append]
    exact hlt
  · intro i hi
    by_cases hir : i = y.e.rdh
    · subst hir
      exact (congrArg RxDesc.addr hself).trans ha
    · exact (congrArg RxDesc.addr (hother i hir)).trans (h.addr i hi)
  · refine h.window.push (fun k x h1 h2 hx => hx.store ha hf ?_) ?_
    · rw [h.rdh]
      exact Lib.slot_ne h1 h2 (by omega)
    · rw [← h.rdh]
      exact rxHolds_store ha h1 hf hv
  · intro k hk1 hk2
    change (y.received ++ [f]).length ≤ k at hk1
    rw [List.length_append] at hk1
    have hslot : y.received.length % rxDescs ≠ k % rxDescs :=
      Lib.slot_ne hpr (by simpa using hk1) hk2
    show ((y.e.store f v).rxDescArray _).status &&& _ = 0
    rw [hother _ (by rw [h.rdh]; exact hslot.symm)]
    exact h.clear k (by omega) hk2
  · show List.Forall₂ Delivered ((y.received ++ [f]).take y.polled.length) y.polled
    rw [List.take_append_of_le_length hpr]
    exact h.polled
  · have hc' := h.call c hc
    have hmem : ∀ {g : List Byte}, y.received[y.polled.length]? = some g →
        (y.received ++ [f])[y.polled.length]? = some g := fun hg => by
      rw [List.getElem?_append_left (List.getElem?_eq_some_iff.mp hg).1, hg]
    cases c with
    | entry b => trivial
    | tail b t => exact hc'
    | ready b next =>
      refine ⟨hc'.1, ?_⟩
      show _ < (y.received ++ [f]).length
      rw [List.length_append]
      exact Nat.lt_succ_of_lt hc'.2
    | copied b next n =>
      obtain ⟨hnext, g, hg, hd⟩ := hc'
      exact ⟨hnext, g, hmem hg, hd⟩
    | reset b next n =>
      obtain ⟨hnext, hclear, g, hg, hg1, hd⟩ := hc'
      refine ⟨hnext, ?_, g, hmem hg, hg1, hd⟩
      have hp := (List.getElem?_eq_some_iff.mp hg).1
      have hslot : y.polled.length % rxDescs ≠ y.received.length % rxDescs :=
        Lib.slot_ne le_rfl hp hroom
      show ((y.e.store f v).rxDescArray _).status &&& _ = 0
      rw [hother _ (by rw [hnext, h.rdh]; exact hslot)]
      exact hclear
    | done b r => exact hc'

/-- One step of `e1000_poll`. -/
theorem RxInv.pollStep {c : RxCall} (hc : y.rx = some c) :
    RxInv (y.setRx (pollStep y.e c).1 (pollStep y.e c).2) := by
  have hok := h.call c hc
  have hle := h.le
  have hroom := h.room
  have hwin := h.window
  cases c with
  | entry b =>
    unfold Rings.taken at hle hwin
    rw [hc] at hle hwin
    refine ⟨h.rdlen, h.rdh, h.rdt, hle, h.room, h.addr, hwin, h.clear, h.polled, fun c hc => ?_⟩
    cases hc
    rfl
  | tail b t =>
    obtain rfl := hok
    unfold Rings.taken at hle hwin
    rw [hc] at hle hwin
    unfold Drivers.pollStep
    dsimp only
    split_ifs with hdd
    · refine ⟨h.rdlen, h.rdh, h.rdt, hle, h.room, h.addr, hwin, h.clear, h.polled, fun c hc => ?_⟩
      cases hc
    · refine ⟨h.rdlen, h.rdh, h.rdt, hle, h.room, h.addr, hwin, h.clear, h.polled, fun c hc => ?_⟩
      cases hc
      refine ⟨h.next_slot, lt_of_le_of_ne hle fun e => hdd ?_⟩
      change y.polled.length = y.received.length at e
      rw [h.next_slot, e]
      exact h.clear _ le_rfl hroom
  | ready b next =>
    obtain ⟨rfl, hlt⟩ := hok
    unfold Rings.taken at hle hwin
    rw [hc] at hle hwin
    have hx := hwin.head hlt
    refine ⟨h.rdlen, h.rdh, h.rdt, hle, h.room, h.addr, hwin, h.clear, h.polled, fun c hc => ?_⟩
    cases hc
    refine ⟨rfl, _, List.getElem?_eq_getElem hlt, hx.length, fun d hd => ?_⟩
    -- the bytes of the copy are those of the buffer
    cases b with
    | none => cases hd
    | some m =>
      cases hd
      rw [hx.length]
      refine Eq.trans (bytes_congr fun k hk => ?_) hx.data
      exact blit_in hk
  | copied b next n =>
    obtain ⟨rfl, f, hf, hd⟩ := hok
    unfold Rings.taken at hle hwin
    rw [hc] at hle hwin
    have hlt := (List.getElem?_eq_some_iff.mp hf).1
    have hpos := (hwin _ f le_rfl hf).pos
    have hself : (resetDesc y.e (y.polled.length % rxDescs)).rxDescArray
        (y.polled.length % rxDescs) = _ := Function.update_self ..
    have hother : ∀ i, i ≠ y.polled.length % rxDescs →
        (resetDesc y.e (y.polled.length % rxDescs)).rxDescArray i = y.e.rxDescArray i :=
      fun i hi => Function.update_of_ne hi _ _
    refine ⟨h.rdlen, h.rdh, h.rdt, hlt, h.room, fun i hi => ?_, ?_, fun k hk1 hk2 => ?_, h.polled,
      fun c hc => ?_⟩
    · by_cases hin : i = y.polled.length % rxDescs
      · subst hin
        exact (congrArg RxDesc.addr hself).trans (h.addr _ hi)
      · exact (congrArg RxDesc.addr (hother i hin)).trans (h.addr i hi)
    · refine hwin.pop.congr fun k x hk1 hk2 hx => hx.resetDesc ?_
      have hlt' : k < y.polled.length + rxDescs := lt_trans hk2 hroom
      have hslot : y.polled.length % rxDescs ≠ k % rxDescs := Lib.slot_ne le_rfl hk1 hlt'
      exact hslot.symm
    · by_cases hin : k % rxDescs = y.polled.length % rxDescs
      · rw [hin]
        exact (congrArg (fun d => RxDesc.status d &&& rxdStatDd) hself).trans (Nat.zero_and _)
      · exact (congrArg (fun d => RxDesc.status d &&& rxdStatDd) (hother _ hin)).trans
          (h.clear k hk1 hk2)
    · cases hc
      refine ⟨rfl, ?_, f, hf, hpos, hd⟩
      exact (congrArg (fun d => RxDesc.status d &&& rxdStatDd) hself).trans (Nat.zero_and _)
  | reset b next n =>
    obtain ⟨rfl, hclear, f, hf, hpos, hd⟩ := hok
    unfold Rings.taken at hle hwin
    rw [hc] at hle hwin
    have hn : n ≠ 0 := by
      have := hd.1
      dsimp only at this
      omega
    unfold Drivers.pollStep Rings.setRx
    dsimp only
    rw [if_pos hn]
    have hlen : (y.polled ++ [(n, b.map fun m => bytes m 0 n)]).length = y.polled.length + 1 := by
      rw [List.length_append, List.length_singleton]
    refine ⟨h.rdlen, h.rdh, ?_, ?_, ?_, h.addr, ?_, fun k hk1 hk2 => ?_, ?_, fun c hc => by cases hc⟩
    · show y.polled.length % rxDescs = _
      rw [hlen]
      simp only [rxDescs]
      omega
    · show (y.polled ++ _).length ≤ _
      rw [hlen]
      exact hle
    · rw [hlen]
      show y.received.length < _
      omega
    · show Window rxDescs _ (y.polled ++ _).length _
      rw [hlen]
      exact hwin.congr fun _ _ _ _ hx => hx.congr rfl fun _ _ => rfl
    · rw [hlen] at hk2
      rcases Nat.lt_or_ge k (y.polled.length + rxDescs) with hlt | hge
      · exact h.clear k hk1 hlt
      · obtain rfl : k = y.polled.length + rxDescs := by omega
        rw [Nat.add_mod_right]
        exact hclear
    · rw [hlen]
      show List.Forall₂ Delivered (y.received.take (y.polled.length + 1)) _
      rw [List.take_add_one, hf]
      exact List.rel_append h.polled (List.Forall₂.cons hd .nil)
  | done b r => exact hok.elim

end Poll

/-! ## All runs -/

/-- Both rings. -/
structure Inv (y : Rings) : Prop where
  tx : TxInv y
  rx : RxInv y

theorem inv_start (e : E1000) : Inv (.start e) where
  tx := by
    have hroom : (0 : ℕ) < 0 + txDescs := by norm_num
    exact ⟨rfl, rfl, rfl, rfl, List.prefix_rfl, hroom, Window.nil, fun c hc => by cases hc⟩
  rx := by
    have hdesc : ∀ i < rxDescs, (e1000Init e).rxDescArray i =
        { e.rxDescArray i with
          status := 0, length := 0, errors := 0, csum := 0, addr := rxPktSize * i } :=
      fun i hi => if_pos hi
    have hroom : (0 : ℕ) < 0 + rxDescs := by norm_num
    refine ⟨rfl, rfl, rfl, Nat.zero_le _, hroom, fun i hi => ?_, Window.nil, fun k _ _ => ?_,
      .nil, fun c hc => by cases hc⟩
    · exact congrArg RxDesc.addr (hdesc i hi)
    · refine (congrArg (fun d => RxDesc.status d &&& rxdStatDd) (hdesc _ ?_)).trans (Nat.zero_and _)
      exact Nat.mod_lt _ (by norm_num)

theorem Rings.setTx_rx (y : Rings) {e : E1000} (c : TxCall)
    (h : RxInv { y with e := e }) : RxInv (y.setTx e c) := by
  cases c <;> exact h.congr rfl rfl rfl rfl rfl rfl rfl rfl

theorem Rings.setRx_tx (y : Rings) {e : E1000} (c : RxCall)
    (h : TxInv { y with e := e }) : TxInv (y.setRx e c) := by
  cases c <;> exact h.congr rfl rfl rfl rfl rfl rfl rfl rfl rfl

/-- Every event keeps both rings. -/
theorem Inv.step {y : Rings} (h : Inv y) {v : Event} (hok : v.Ok y) : Inv (y.step v) := by
  cases v with
  | transmit p n =>
    refine ⟨⟨h.tx.tdlen, h.tx.tdh, h.tx.tdt, h.tx.frag, h.tx.sent, h.tx.room, h.tx.window,
      fun c hc => ?_⟩, h.rx.congr rfl rfl rfl rfl rfl rfl rfl rfl⟩
    cases hc
    exact hok.2
  | transmitStep =>
    unfold Rings.step
    dsimp only
    cases hc : y.tx with
    | none => exact absurd hc hok
    | some c =>
      refine ⟨h.tx.transmitStep hc, y.setTx_rx _ ?_⟩
      cases c <;> exact h.rx.congr rfl rfl rfl rfl rfl rfl rfl rfl
  | poll b =>
    have hrx : y.rx = none := hok
    have hle := h.rx.le
    have hwin := h.rx.window
    unfold Rings.taken at hle hwin
    rw [hrx] at hle hwin
    refine ⟨h.tx.congr rfl rfl rfl rfl rfl rfl rfl rfl rfl, ⟨h.rx.rdlen, h.rx.rdh, h.rx.rdt, hle,
      h.rx.room, h.rx.addr, hwin, h.rx.clear, h.rx.polled, fun c hc => ?_⟩⟩
    cases hc
    trivial
  | pollStep =>
    unfold Rings.step
    dsimp only
    cases hc : y.rx with
    | none => exact absurd hc hok
    | some c =>
      refine ⟨y.setRx_tx _ ?_, h.rx.pollStep hc⟩
      cases c <;> exact h.tx.congr rfl rfl rfl rfl rfl rfl rfl rfl rfl
  | send =>
    refine ⟨h.tx.send hok.2, ?_⟩
    unfold Rings.step Rings.send
    dsimp only
    split_ifs
    · exact h.rx.congr rfl rfl rfl rfl rfl rfl rfl rfl
    · exact h.rx.congr rfl rfl rfl rfl rfl rfl rfl rfl
  | receive f v => exact ⟨h.tx.congr rfl rfl rfl rfl rfl rfl rfl rfl rfl, h.rx.receive hok⟩

theorem inv_run (e : E1000) {vs : List Event} (hv : Valid Rings.step (fun y v => v.Ok y) (.start e) vs) :
    Inv (run Rings.step (.start e) vs) :=
  hv.inv (fun _ _ h hok => h.step hok) (inv_start e)

/-- The packets sent are the accepted ones up to those in the ring, and these are still in their
buffers; the results of the polls are the received frames up to those in the ring, and a poll finds
the descriptor not done only when there is no frame in the ring. -/
structure Exact (y : Rings) : Prop where
  sent : y.wire <+: y.accepted
  pending : y.accepted.length = y.wire.length + (y.e.tdt + txDescs - y.e.tdh) % txDescs
  intact : ∀ k p, y.wire.length ≤ k → y.accepted[k]? = some p → y.e.txData (k % txDescs) = p
  order : y.e.tdh = y.wire.length % txDescs
  delivered : List.Forall₂ Delivered (y.received.take y.polled.length) y.polled
  misses : ∀ b t, y.rx = some (.tail b t) →
    (y.e.rxDescArray ((t + 1) % rxDescs)).status &&& rxdStatDd = 0 →
    y.polled.length = y.received.length

theorem Inv.exact {y : Rings} (h : Inv y) : Exact y where
  sent := h.tx.sent
  pending := by
    have hle := h.tx.sent.length_le
    have hroom := h.tx.room
    rw [h.tx.tdt, h.tx.tdh]
    simp only [txDescs] at *
    omega
  intact k p hk hp := (h.tx.window k p hk hp).data
  order := h.tx.tdh
  delivered := h.rx.polled
  misses b t hrx hdd := by
    obtain rfl : t = y.e.rdt := h.rx.call _ hrx
    exact h.rx.all_polled (by unfold Rings.taken; rw [hrx]) hdd

/-- A packet is sent, and a frame is polled. -/
def ringRun : List Event :=
  [.transmit (fun _ => 1#8) 60, .transmitStep, .transmitStep, .transmitStep, .transmitStep,
    .transmitStep, .send, .poll (some fun _ => 0#8), .pollStep,
    .receive [5#8, 6#8] ⟨0, 0, 0, 3, 0, 0⟩, .pollStep, .pollStep, .pollStep, .pollStep]

/-- The card as it is switched on. -/
def powerOn : E1000 :=
  ⟨0, 0, 0, 0, 0, 0, 0, 0, fun _ => ⟨0, 0, 0, 0, 0, 0, 0⟩, fun _ => ⟨0, 0, 0, 0, 0, 0⟩,
    fun _ => 0#8, fun _ => 0#8⟩

/-- Nothing stays behind: the card can send all the packets in the ring, and then it has sent what
has been accepted. -/
theorem Inv.drain {y : Rings} (h : Inv y) (hen : y.e.tctl &&& tctlEn ≠ 0) (n : ℕ)
    (hn : y.wire.length + n = y.accepted.length) :
    Valid Rings.step (fun y v => v.Ok y) y (List.replicate n .send) ∧
      (run Rings.step y (List.replicate n .send)).wire = y.accepted := by
  induction n generalizing y with
  | zero => exact ⟨trivial, h.tx.sent.eq_of_length (by omega)⟩
  | succ n ih =>
    have hroom := h.tx.room
    have hne : y.e.tdh ≠ y.e.tdt := by
      rw [h.tx.tdh, h.tx.tdt]
      exact Lib.slot_ne le_rfl (by omega) hroom
    have hok : Event.Ok y .send := ⟨hen, hne⟩
    have hlt : y.wire.length < y.accepted.length := by omega
    have hx := h.tx.window.head hlt
    rw [← h.tx.tdh] at hx
    have hsend : (y.step .send).wire.length = y.wire.length + 1 ∧
        (y.step .send).accepted = y.accepted ∧ (y.step .send).e.tctl = y.e.tctl := by
      unfold Rings.step Rings.send
      dsimp only
      rw [if_neg hx.eop]
      exact ⟨by rw [List.length_append, List.length_singleton], rfl, rfl⟩
    obtain ⟨hv, hw⟩ := ih (h.step hok) (by rw [hsend.2.2]; exact hen)
      (by rw [hsend.1, hsend.2.1]; omega)
    exact ⟨⟨hok, hv⟩, hw.trans hsend.2.1⟩

end RiscvKernel.Drivers
