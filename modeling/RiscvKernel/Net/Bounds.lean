import RiscvKernel.Net.Receiver

/-!
# The copies of the receiver

`do_net_recv_stream` checks that a frame is long enough for a header and then copies as many bytes as the
header says. The copies stay in the frame exactly as long as what is copied of it does (`recv_bounded_iff`);
the entries and the user's buffer are then big enough.
-/

namespace RiscvKernel.Net

open Lib Run

variable {s s' : Receiver} {k : RecvCall} {p : Packet} {a : Act} {as : List Act} {now n : ℕ}
  {poll : Option Packet}

/-- The access is within the frame, an entry or the buffer that the user has given. -/
def Access.Ok (pktLen : ℕ) (wanted : ℤ) : Access → Prop
  | .raw start n => start + n ≤ pktLen
  | .load _ n => n ≤ entryDataSize
  | .store _ n => n ≤ entryDataSize
  | .user start n => 0 ≤ start ∧ start + n ≤ wanted

instance (pktLen : ℕ) (wanted : ℤ) : ∀ x, Decidable (Access.Ok pktLen wanted x)
  | .raw _ _ => inferInstanceAs (Decidable (_ ≤ _))
  | .load _ _ => inferInstanceAs (Decidable (_ ≤ _))
  | .store _ _ => inferInstanceAs (Decidable (_ ≤ _))
  | .user _ _ => inferInstanceAs (Decidable (_ ∧ _))

def Bounded (pktLen : ℕ) (wanted : ℤ) (s : Receiver) : Prop := ∀ x ∈ s.accesses, x.Ok pktLen wanted

/-- All accesses of a round, if it comes to an end, are in bounds. -/
def AccessesOk (s : Receiver) : Act → Prop
  | .round now poll => ∀ k ∈ s.call, ∀ s' ∈ s.recvRound now poll k,
      Bounded (poll.elim 0 Packet.length) k.wanted s'
  | _ => True

/-- What is copied of a data packet is in the packet. -/
def PayloadFits (s : Receiver) (k : RecvCall) (p : Packet) : Prop :=
  if p.seq = s.nextExpectSeq then
    -- what the user gets, and all of it if the end is stored
    rtpOffset + rtpHeader + k.copyLen p.len ≤ p.length ∧
      (EndStored s k p → rtpOffset + rtpHeader + p.len ≤ p.length)
  else s.nextExpectSeq < p.seq ∧ WouldStore s.nextExpectSeq p.seq s.reorder →
    rtpOffset + rtpHeader + p.len ≤ p.length

/-- The data packet of a round, if it comes to that, fits. -/
def RoundFits (s : Receiver) : Act → Prop
  | .round _ poll => ∀ k ∈ s.call, k.received < k.wanted →
      s.reorder.getReorderEntry s.nextExpectSeq = some none →
        ∀ p ∈ poll, p.isData = true → PayloadFits s k p
  | _ => True

/-- `e1000_poll` returns frames of at most `RX_PKT_SIZE` bytes. -/
def Act.Polled : Act → Prop
  | .round _ poll => ∀ p ∈ poll, p.length ≤ rxPktSize
  | _ => True

instance (pktLen : ℕ) (wanted : ℤ) (s : Receiver) : Decidable (Bounded pktLen wanted s) :=
  inferInstanceAs (Decidable (∀ x ∈ s.accesses, x.Ok pktLen wanted))

instance (s : Receiver) : ∀ a, Decidable (AccessesOk s a)
  | .recv _ _ => isTrue trivial
  | .round now poll => inferInstanceAs (Decidable (∀ k ∈ s.call, ∀ s' ∈ s.recvRound now poll k, Bounded _ _ s'))
  | .reset => isTrue trivial

instance : ∀ a, Decidable (Act.Polled a)
  | .recv _ _ => isTrue trivial
  | .round _ poll => inferInstanceAs (Decidable (∀ p ∈ poll, p.length ≤ rxPktSize))
  | .reset => isTrue trivial

/-- Entries are not longer than their data, and no call has received less than nothing. -/
structure BoundsInv (s : Receiver) : Prop where
  len : ∀ i, s.reorder.len i ≤ entryDataSize
  received : ∀ k ∈ s.call, 0 ≤ k.received

/-! ## Lists of accesses -/

@[simp] theorem bounded_access {m : ℕ} {w : ℤ} {x : Access} :
    Bounded m w (s.access x) ↔ Bounded m w s ∧ x.Ok m w := by
  show (∀ y ∈ s.accesses ++ [x], _) ↔ _
  rw [List.forall_mem_append]
  exact and_congr_right fun _ => List.forall_mem_singleton

theorem bounded_saveHeader {m : ℕ} {w : ℤ} (hm : rtpOffset ≤ m) :
    Bounded m w (s.saveHeader p) ↔ Bounded m w s := by
  unfold Receiver.saveHeader
  split_ifs
  · rfl
  · show Bounded m w (s.access (.raw 0 rtpOffset)) ↔ _
    rw [bounded_access, and_iff_left]
    show 0 + rtpOffset ≤ m
    rwa [Nat.zero_add]

theorem bounded_stored {m : ℕ} {w : ℤ} {i : Slot} {l : Links Slot Unit} {seq len start : ℕ} {raw : Mem} :
    Bounded m w (s.stored i l seq len raw start) ↔
      Bounded m w s ∧ start + len ≤ m ∧ len ≤ entryDataSize := by
  unfold Receiver.stored
  rw [bounded_access, bounded_access, and_assoc]
  rfl

theorem copyLen_range (hr : k.received < k.wanted) (len : ℕ) :
    k.copyLen len ≤ len ∧ k.received + k.copyLen len ≤ k.wanted := by
  unfold RecvCall.copyLen
  split_ifs <;> omega

theorem bounded_copyData {m : ℕ} (h0 : 0 ≤ k.received) (hr : k.received < k.wanted) :
    Bounded m k.wanted (s.copyData p k) ↔
      Bounded m k.wanted s ∧ rtpOffset + rtpHeader + k.copyLen p.len ≤ m := by
  show Bounded m k.wanted ((s.access (.raw (rtpOffset + rtpHeader) (k.copyLen p.len))).access
    (.user k.received (k.copyLen p.len))) ↔ _
  rw [bounded_access, bounded_access, and_assoc]
  refine and_congr_right fun _ => and_iff_left ?_
  exact ⟨h0, (copyLen_range hr p.len).2⟩

/-! ## Rounds -/

theorem Packet.le_of_isData (h : p.isData = true) : rtpOffset + rtpHeader ≤ p.length := by
  unfold Packet.isData at h
  simp only [Bool.and_eq_true, Bool.not_eq_true', decide_eq_false_iff_not, not_lt] at h
  exact h.1.1

/-- The accesses for a data packet are in bounds exactly when what is copied fits. -/
theorem recvData_bounded (now : ℕ) (hk : 0 ≤ k.received) (hr : k.received < k.wanted)
    (he : s.reorder.getReorderEntry n = some none) (hs : Bounded p.length k.wanted s)
    (hd : p.isData = true) (hp : p.length ≤ rxPktSize) :
    ∃ s', s.recvData now p k = some s' ∧ (Bounded p.length k.wanted s' ↔ PayloadFits s k p) := by
  have hlen := p.le_of_isData hd
  have hoff : rtpOffset ≤ p.length := le_trans (Nat.le_add_right _ _) hlen
  have hsave : Bounded p.length k.wanted (s.saveHeader p) := (bounded_saveHeader hoff).mpr hs
  have hsize : ∀ m, rtpOffset + rtpHeader + m ≤ p.length → m ≤ entryDataSize := by
    intro m hm
    have : entryDataSize = rxPktSize := rfl
    omega
  have hcopy := (copyLen_range hr p.len).1
  have hb : Bounded p.length k.wanted ((s.saveHeader p).copyData p k) ↔
      rtpOffset + rtpHeader + k.copyLen p.len ≤ p.length := by
    rw [bounded_copyData hk hr]
    exact and_iff_right hsave
  unfold PayloadFits
  rcases recvData_cases he now p k with
    ⟨h1, ⟨hw, e⟩ | ⟨i, l, hw, -, e⟩⟩ | ⟨h1, ⟨hw, e⟩ | ⟨i, l, hw, -, e⟩⟩ | ⟨h1, e⟩
  · -- the packet that is expected
    refine ⟨_, e, ?_⟩
    rw [if_pos h1, hb]
    exact (and_iff_left fun h => absurd h hw).symm
  · refine ⟨_, e, ?_⟩
    rw [if_pos h1, Receiver.split, bounded_stored, hb]
    constructor
    · rintro ⟨h2, h3, -⟩
      exact ⟨h2, fun _ => by omega⟩
    · rintro ⟨h2, h3⟩
      have h3 := h3 hw
      exact ⟨h2, by omega, hsize _ (by omega)⟩
  · -- a packet that comes too early
    refine ⟨_, e, ?_⟩
    rw [if_neg h1.ne']
    exact iff_of_true hsave fun h => absurd h.2 hw
  · refine ⟨_, e, ?_⟩
    rw [if_neg h1.ne']
    show Bounded p.length k.wanted
      ((s.saveHeader p).stored i l p.seq p.len p.raw (rtpOffset + rtpHeader)) ↔ _
    rw [bounded_stored, and_iff_right hsave]
    exact ⟨fun h _ => h.1, fun h => ⟨h ⟨h1, hw⟩, hsize _ (h ⟨h1, hw⟩)⟩⟩
  · -- an old one
    refine ⟨_, e, ?_⟩
    rw [if_neg h1.ne]
    exact iff_of_true hsave fun h => absurd h.1 h1.not_gt

/-- The accesses of a round are in bounds exactly when the data packet fits. -/
theorem accessesOk_iff (h : BoundsInv s) (ha : a.Polled) : AccessesOk s a ↔ RoundFits s a := by
  cases a with
  | recv wanted now => rfl
  | reset => rfl
  | round now poll =>
    cases hc : s.call with
    | none =>
      refine iff_of_true (fun k hk => ?_) fun k hk => ?_
      · rw [hc] at hk
        cases hk
      · rw [hc] at hk
        cases hk
    | some k =>
      unfold AccessesOk RoundFits
      simp only [hc, Option.mem_some_iff, forall_eq']
      have h0 := h.received k hc
      rcases recvRound_cases s now poll hc with
        ⟨hr, e⟩ | ⟨hr, ⟨he, e⟩ | ⟨i, he, e⟩ | ⟨he, ⟨hp, s', e, hi⟩ | ⟨p, rfl, hd, e⟩⟩⟩
      · rw [e]
        refine iff_of_true (fun s' hs' => ?_) fun h => absurd h hr
        cases hs'
        exact nofun
      · rw [e, he]
        exact iff_of_true nofun nofun
      · -- an entry
        rw [e, he]
        refine iff_of_true (fun s' hs' => ?_) nofun
        obtain rfl := Option.some.inj hs'
        have hlen := copyLen_range hr (s.reorder.len i)
        rintro x hx
        rcases List.mem_cons.mp hx with rfl | hx
        · exact hlen.1.trans (h.len i)
        · obtain rfl := List.mem_singleton.mp hx
          exact ⟨h0, hlen.2⟩
      · -- no data packet
        rw [e]
        refine iff_of_true (fun s'' hs'' x hx => ?_) fun _ _ p hpp hd => ?_
        · obtain rfl := Option.some.inj hs''
          obtain ⟨rfl, p, hpp, hle⟩ := hi.accesses x hx
          obtain rfl := hpp
          exact hle
        · rw [hp p hpp] at hd
          cases hd
      · -- a data packet
        generalize hs0 : { s with accesses := [] }.access (.raw rtpOffset rtpHeader) = s0 at e
        have hs : Bounded p.length k.wanted s0 := by
          rw [← hs0, bounded_access]
          exact ⟨nofun, p.le_of_isData hd⟩
        have he0 : s0.reorder.getReorderEntry s.nextExpectSeq = some none := by
          rw [← hs0]
          exact he
        obtain ⟨s', e', hiff⟩ := recvData_bounded now h0 hr he0 hs hd (ha p rfl)
        rw [← hs0] at hiff
        rw [e, e']
        constructor
        · intro hb _ _ p' hp' _
          obtain rfl := Option.some.inj hp'
          exact hiff.mp (hb s' rfl)
        · intro hf s'' hs''
          obtain rfl := Option.some.inj hs''
          exact hiff.mpr (hf hr he p rfl hd)

/-! ## Runs -/

theorem BoundsInv.entry (h : BoundsInv s) (hk : 0 ≤ k.received) (i : Slot) :
    BoundsInv (s.recvEntry now i k) := by
  constructor
  · intro j
    show (if _ then s.reorder.shortenSlot i _ else s.reorder.dropSlot i).len j ≤ _
    have hlen : ∀ m, m ≤ entryDataSize → Function.update s.reorder.len i m j ≤ entryDataSize := by
      intro m hm
      by_cases hj : j = i
      · rwa [hj, Function.update_self]
      · rw [Function.update_of_ne hj]
        exact h.len j
    split_ifs
    · exact hlen _ ((Nat.sub_le _ _).trans (h.len i))
    · exact hlen 0 (Nat.zero_le _)
  · rintro k' hk'
    obtain rfl := Option.some.inj hk'
    exact add_nonneg hk (Int.natCast_nonneg _)

/-- The slot that a packet has been stored in is long enough, if the accesses were in bounds. -/
theorem BoundsInv.stored {m : ℕ} {w : ℤ} {i : Slot} {l : Links Slot Unit} {seq len start : ℕ} {raw : Mem}
    (h : ∀ j, s.reorder.len j ≤ entryDataSize) (hb : Bounded m w (s.stored i l seq len raw start)) (j : Slot) :
    (s.stored i l seq len raw start).reorder.len j ≤ entryDataSize := by
  have hlen := (bounded_stored.mp hb).2.2
  show Function.update s.reorder.len i len j ≤ _
  by_cases hj : j = i
  · rwa [hj, Function.update_self]
  · rw [Function.update_of_ne hj]
    exact h j

theorem BoundsInv.data (h : ∀ j, s.reorder.len j ≤ entryDataSize) (hc : s.call = some k)
    (hk : 0 ≤ k.received) (he : s.reorder.getReorderEntry n = some none)
    (e : s.recvData now p k = some s') {m : ℕ} (hb : Bounded m k.wanted s') : BoundsInv s' := by
  have hsave : ∀ j, (s.saveHeader p).reorder.len j ≤ entryDataSize := by
    rwa [saveHeader_reorder]
  have hcopy : 0 ≤ k.received + k.copyLen p.len := add_nonneg hk (Int.natCast_nonneg _)
  rcases recvData_cases he now p k with
    ⟨-, ⟨-, e1⟩ | ⟨i, l, -, -, e1⟩⟩ | ⟨-, ⟨-, e1⟩ | ⟨i, l, -, -, e1⟩⟩ | ⟨-, e1⟩
  all_goals obtain rfl := Option.some.inj (e.symm.trans e1)
  · refine ⟨hsave, fun k' hk' => ?_⟩
    obtain rfl := Option.some.inj hk'
    exact hcopy
  · refine ⟨BoundsInv.stored hsave hb, fun k' hk' => ?_⟩
    obtain rfl := Option.some.inj hk'
    exact hcopy
  · refine ⟨hsave, fun k' hk' => ?_⟩
    obtain rfl := Option.some.inj hk'
    exact hk
  · refine ⟨BoundsInv.stored hsave hb, fun k' hk' => ?_⟩
    obtain rfl := Option.some.inj hk'
    exact hk
  · refine ⟨hsave, fun k' hk' => ?_⟩
    have hk' : (s.saveHeader p).call = some k' := hk'
    rw [saveHeader_call, hc] at hk'
    obtain rfl := Option.some.inj hk'
    exact hk

/-- Steps with accesses in bounds keep the invariant. -/
theorem BoundsInv.next (h : BoundsInv s) (ha : AccessesOk s a) : BoundsInv (s.next a) := by
  cases a with
  | recv wanted now =>
    unfold Receiver.next Receiver.step
    split_ifs
    · exact h
    · refine ⟨h.len, fun k hk => ?_⟩
      obtain rfl := Option.some.inj hk
      exact le_refl 0
  | reset =>
    unfold Receiver.next Receiver.step
    split_ifs
    · exact h
    · exact ⟨h.len, h.received⟩
  | round now poll =>
    cases hc : s.call with
    | none =>
      unfold Receiver.next Receiver.step
      rw [hc]
      exact h
    | some k =>
      have hnext : s.next (.round now poll) = (s.recvRound now poll k).getD s := by
        unfold Receiver.next Receiver.step
        rw [hc]
        rfl
      have h0 := h.received k hc
      have ha := ha k hc
      rw [hnext]
      rcases recvRound_cases s now poll hc with
        ⟨hr, e⟩ | ⟨hr, ⟨he, e⟩ | ⟨i, he, e⟩ | ⟨he, ⟨hp, s', e, hi⟩ | ⟨p, rfl, hd, e⟩⟩⟩
      · rw [e]
        exact ⟨h.len, nofun⟩
      · rw [e]
        exact h
      · rw [e]
        exact BoundsInv.entry (s := { s with accesses := [] }) ⟨h.len, h.received⟩ h0 i
      · rw [e]
        refine ⟨fun i => ?_, fun k' hk' => ?_⟩
        · show s'.reorder.len i ≤ _
          rw [hi.reorder]
          exact h.len i
        · rw [(hi.call k' hk').1]
          exact h0
      · generalize hs0 : { s with accesses := [] }.access (.raw rtpOffset rtpHeader) = s0 at e
        have h1 : ∀ j, s0.reorder.len j ≤ entryDataSize := by
          rw [← hs0]
          exact h.len
        have he0 : s0.reorder.getReorderEntry s.nextExpectSeq = some none := by
          rw [← hs0]
          exact he
        have hc0 : s0.call = some k := by
          rw [← hs0]
          exact hc
        rw [e]
        cases e1 : s0.recvData now p k with
        | none => exact h
        | some s' => exact BoundsInv.data h1 hc0 h0 he0 e1 (ha s' (e.trans e1))

/-- Whatever the frames are, all accesses of all rounds are in bounds exactly when every data packet fits
when its turn comes. -/
theorem recv_bounded_iff (h : BoundsInv s) (ha : ∀ a ∈ as, a.Polled) :
    Valid Receiver.next AccessesOk s as ↔ Valid Receiver.next RoundFits s as :=
  valid_congr (fun _ _ _ hs hok => hs.next hok) (fun _ a hm hs => accessesOk_iff hs (ha a hm)) h

theorem boundsInv_init : BoundsInv initReceiver where
  len _ := Nat.zero_le _
  received := nofun

/-- A frame with four bytes of data that come too early, and then the four bytes before them. -/
theorem recv_bounded_twoFrames :
    Valid Receiver.next AccessesOk initReceiver
        [.recv 8 0, .round 0 (some (dataPacket 66 4 4)), .round 0 (some (dataPacket 66 0 4))] ↔
      Valid Receiver.next RoundFits initReceiver
        [.recv 8 0, .round 0 (some (dataPacket 66 4 4)), .round 0 (some (dataPacket 66 0 4))] :=
  recv_bounded_iff boundsInv_init (by decide)

/-- A frame that ends with its header, which says that 100 bytes follow. -/
theorem recv_bounded_short :
    ¬ ∀ as, (∀ a ∈ as, Act.Polled a) → Valid Receiver.next AccessesOk initReceiver as := by
  intro h
  exact absurd (h [.recv 100 0, .round 0 (some (dataPacket 62 0 100))] (by decide)) (by decide +kernel)

end RiscvKernel.Net
