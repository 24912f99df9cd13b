import RiscvKernel.Net.Stream

/-!
# What arrives at the user

All data frames carry parts of one stream `S`. What has been delivered is the beginning of `S`, and the
entries of the reorder buffer hold parts of `S`, as long as no entry is taken in two pieces: `entry->seq` and
`entry->len` then change, but the data are not moved to the front.
-/

namespace RiscvKernel.Net

open Lib

variable {S : ℕ → Byte} {s s' : Stream} {k : RecvCall} {e : Entry} {p : Packet} {q : List Entry}
  {a : Act} {as : List Act} {now : ℕ}

/-- The `n` bytes of the stream from `a` on. -/
def slice (S : ℕ → Byte) (a n : ℕ) : List Byte := (List.range n).map fun i => S (a + i)

@[simp] theorem length_slice (a n : ℕ) : (slice S a n).length = n := by simp [slice]

theorem slice_append (a n m : ℕ) : slice S a n ++ slice S (a + n) m = slice S a (n + m) := by
  simp [slice, List.range_add, Nat.add_assoc]

theorem slice_getElem? {a n i : ℕ} (hi : i < n) : (slice S a n)[i]? = some (S (a + i)) := by
  simp [slice, hi]

theorem take_slice {a n m : ℕ} (h : m ≤ n) : (slice S a n).take m = slice S a m := by
  obtain ⟨d, rfl⟩ := Nat.exists_eq_add_of_le h
  rw [← slice_append, List.take_left' (length_slice a m)]

theorem drop_slice {a n m : ℕ} (h : m ≤ n) : (slice S a n).drop m = slice S (a + m) (n - m) := by
  obtain ⟨d, rfl⟩ := Nat.exists_eq_add_of_le h
  rw [← slice_append, List.drop_left' (length_slice a m), Nat.add_sub_cancel_left]

/-! ## Frames and steps -/

/-- The packet is a frame of the stream, if it is a data packet at all. -/
def FrameOf (S : ℕ → Byte) (p : Packet) : Prop :=
  p.isData → 1 ≤ p.len ∧ rtpOffset + rtpHeader + p.len ≤ p.length ∧ p.length ≤ rxPktSize ∧
    p.seq < 2 ^ 31 ∧ ∀ i < p.len, p.raw (rtpOffset + rtpHeader + i) = S (p.seq + i)

/-- A step of a transfer: calls, and rounds in which the device has a frame of the stream or nothing. -/
def Transfer (S : ℕ → Byte) (s : Stream) : Act → Prop
  | .recv wanted now => step s (.recv wanted now) ≠ none
  | .round now poll => step s (.round now poll) ≠ none ∧ ∀ p ∈ poll, FrameOf S p
  | .reset => False

/-- The entry that is taken from the reorder buffer in this round is taken as a whole. -/
def TakesWhole (s : Stream) : Act → Prop
  | .round _ _ => ∀ k ∈ s.call, k.received < k.wanted →
      ∀ e ∈ getReorderEntry s.nextExpectSeq s.reorderQueue, (e.len : ℤ) ≤ k.wanted - k.received
  | _ => True

instance (S : ℕ → Byte) (p : Packet) : Decidable (FrameOf S p) :=
  inferInstanceAs (Decidable (_ → _ ∧ _ ∧ _ ∧ _ ∧ ∀ i < p.len, _))

instance (S : ℕ → Byte) (s : Stream) : ∀ a, Decidable (Transfer S s a)
  | .recv _ _ => inferInstanceAs (Decidable (_ ≠ none))
  | .round _ poll => inferInstanceAs (Decidable (_ ≠ none ∧ ∀ p ∈ poll, FrameOf S p))
  | .reset => isFalse id

instance (s : Stream) : ∀ a, Decidable (TakesWhole s a)
  | .recv _ _ => isTrue trivial
  | .round _ _ => inferInstanceAs (Decidable (∀ k ∈ s.call, _ → ∀ e ∈ getReorderEntry _ _, _))
  | .reset => isTrue trivial

/-- Sequence numbers are far from `2^32`. -/
def seqEnd : ℕ := 2 ^ 31 + rxPktSize

/-- An entry holds a part of the stream. -/
structure EntryOk (S : ℕ → Byte) (e : Entry) : Prop where
  data : e.data = slice S e.seq e.len
  pos : 1 ≤ e.len
  bound : e.seq + e.len ≤ seqEnd

structure StreamOk (S : ℕ → Byte) (s : Stream) : Prop where
  delivered : s.delivered = slice S 0 s.nextExpectSeq
  bound : s.nextExpectSeq ≤ seqEnd
  entries : ∀ e ∈ s.reorderQueue, EntryOk S e

theorem FrameOf.data (hp : FrameOf S p) (hd : p.isData) : p.data = slice S p.seq p.len := by
  obtain ⟨-, -, -, -, h⟩ := hp hd
  exact List.map_congr_left fun i hi => h i (List.mem_range.1 hi)

theorem FrameOf.bound (hp : FrameOf S p) (hd : p.isData) : p.seq + p.len ≤ seqEnd := by
  obtain ⟨-, h1, h2, h3, -⟩ := hp hd
  unfold seqEnd
  omega

theorem u32_eq {n : ℕ} (h : n ≤ seqEnd) : u32 n = n := by
  refine Nat.mod_eq_of_lt ?_
  simp only [seqEnd, rxPktSize] at h
  omega

theorem copyLen_le (n : ℕ) : k.copyLen n ≤ n := by
  unfold RecvCall.copyLen
  split_ifs <;> omega

theorem getReorderEntry_mem {seq : ℕ} (h : getReorderEntry seq q = some e) : e ∈ q ∧ e.seq = seq := by
  refine ⟨List.mem_of_find?_eq_some h, ?_⟩
  simpa using List.find?_some h

theorem mem_listInsert {x : Entry} : x ∈ listInsert e q ↔ x = e ∨ x ∈ q := by
  induction q with
  | nil => simp [listInsert]
  | cons y ys ih =>
    rw [listInsert]
    split_ifs
    · simp
    · rw [List.mem_cons, ih, List.mem_cons]
      tauto

/-- The list without its first entry with the number. -/
theorem updateEntry_none_subset {seq : ℕ} {f : Entry → Option Entry} (hf : ∀ x ∈ getReorderEntry seq q, f x = none) :
    updateEntry seq f q ⊆ q := by
  induction q with
  | nil => simp [updateEntry]
  | cons y ys ih =>
    rw [updateEntry]
    split_ifs with h
    · rw [hf y (by simp [getReorderEntry, h])]
      simp
    · have h1 : getReorderEntry seq (y :: ys) = getReorderEntry seq ys := by
        simp [getReorderEntry, h]
      exact List.cons_subset_cons y (ih (h1 ▸ hf))

/-! ## Rounds -/

theorem StreamOk.insert (H : StreamOk S s) {seq len : ℕ} {data : List Byte} (he : EntryOk S ⟨seq, len, data⟩) :
    StreamOk S (insertReorderPacket seq len data s) := by
  unfold insertReorderPacket
  split_ifs
  · exact H
  · exact H
  · exact H
  · exact H
  · refine ⟨H.delivered, H.bound, fun x hx => ?_⟩
    rcases mem_listInsert.1 hx with rfl | hx
    · exact he
    · exact H.entries x hx

/-- Packets that are sent and the variables of the call do not matter. -/
theorem StreamOk.frame (H : StreamOk S s) (k : Option RecvCall) (cs : List Control) :
    StreamOk S { s with sent := cs, call := k } := ⟨H.delivered, H.bound, H.entries⟩

/-- An entry is taken as a whole. -/
theorem StreamOk.recvEntry (H : StreamOk S s) (he : getReorderEntry s.nextExpectSeq s.reorderQueue = some e)
    (hw : (e.len : ℤ) ≤ k.wanted - k.received) : StreamOk S (recvEntry now e k s) := by
  obtain ⟨hmem, hseq⟩ := getReorderEntry_mem he
  obtain ⟨hdata, -, hbound⟩ := H.entries e hmem
  have hn : k.copyLen e.len = e.len := by
    unfold RecvCall.copyLen
    split_ifs <;> omega
  have hlen : s.nextExpectSeq + e.len ≤ seqEnd := by omega
  refine ⟨?_, ?_, fun x hx => ?_⟩
  · show s.delivered ++ e.data.take (k.copyLen e.len) = slice S 0 (u32 (s.nextExpectSeq + k.copyLen e.len))
    rw [hn, u32_eq hlen, H.delivered, hdata, take_slice le_rfl, hseq, ← slice_append, Nat.zero_add]
  · show u32 (s.nextExpectSeq + k.copyLen e.len) ≤ seqEnd
    rw [hn, u32_eq hlen]
    exact hlen
  · refine H.entries x (updateEntry_none_subset (fun y hy => ?_) hx)
    rw [he] at hy
    cases hy
    rw [takeEntry, hn, if_neg (lt_irrefl _)]

/-- The beginning of a frame goes to the user. -/
theorem StreamOk.copyData (H : StreamOk S s) (hp : FrameOf S p) (hd : p.isData)
    (hs : p.seq = s.nextExpectSeq) :
    StreamOk S (copyData p k s) ∧ (Net.copyData p k s).nextExpectSeq = s.nextExpectSeq + k.copyLen p.len := by
  have hbound := hp.bound hd
  have hle := copyLen_le (k := k) p.len
  have hn : s.nextExpectSeq + k.copyLen p.len ≤ seqEnd := by omega
  have hnext : (Net.copyData p k s).nextExpectSeq = s.nextExpectSeq + k.copyLen p.len := u32_eq hn
  refine ⟨⟨?_, ?_, H.entries⟩, hnext⟩
  · rw [hnext]
    show s.delivered ++ p.data.take (k.copyLen p.len) = _
    rw [H.delivered, hp.data hd, take_slice hle, hs, ← slice_append, Nat.zero_add]
  · rw [hnext]
    exact hn

/-- The rest of a frame waits. -/
theorem rest_ok (hp : FrameOf S p) (hd : p.isData) {n : ℕ} (hn : n < p.len) :
    EntryOk S ⟨p.seq + n, p.len - n, p.data.drop n⟩ := by
  have hbound := hp.bound hd
  refine ⟨?_, ?_, ?_⟩
  · show p.data.drop n = slice S (p.seq + n) (p.len - n)
    rw [hp.data hd, drop_slice hn.le]
  · show 1 ≤ p.len - n
    omega
  · show p.seq + n + (p.len - n) ≤ seqEnd
    omega

/-- A data packet is handled. -/
theorem StreamOk.recvData (H : StreamOk S s) (hp : FrameOf S p) (hd : p.isData) :
    StreamOk S (recvData now p k s) := by
  unfold Net.recvData
  split_ifs with h1 h2
  · obtain ⟨H1, hnext⟩ := H.copyData (k := k) hp hd h1
    unfold recvExpected
    dsimp only
    split_ifs with h3
    · rw [hnext, ← h1]
      exact H1.insert (rest_ok hp hd h3)
    · exact H1
  · have H1 := H.insert (show EntryOk S ⟨p.seq, p.len, p.data⟩ from
      ⟨hp.data hd, (hp hd).1, hp.bound hd⟩)
    exact H1.frame _ _
  · exact H.frame _ _

theorem StreamOk.recvNothing (H : StreamOk S s) : StreamOk S (recvNothing now k s) := by
  unfold Net.recvNothing
  split_ifs
  · exact H.frame _ _
  · exact H.frame _ _
  · exact H

theorem next_some (h : step s a ≠ none) : step s a = some (next s a) := by
  cases hs : step s a with
  | none => exact absurd hs h
  | some s' => rw [next, hs, Option.getD_some]

theorem StreamOk.step (H : StreamOk S s) (ht : Transfer S s a) (hw : TakesWhole s a) :
    StreamOk S (next s a) := by
  cases a with
  | reset => exact ht.elim
  | recv wanted now =>
    have h1 := next_some ht
    simp only [Net.step] at h1
    split_ifs at h1
    rw [← Option.some.inj h1]
    exact ⟨H.delivered, H.bound, H.entries⟩
  | round now poll =>
    have h1 := next_some ht.1
    obtain ⟨k, hk, h2⟩ := Option.bind_eq_some_iff.1 h1
    unfold recvRound at h2
    split_ifs at h2 with hlt
    · cases he : getReorderEntry s.nextExpectSeq s.reorderQueue with
      | some e =>
        rw [he] at h2
        rw [← Option.some.inj h2]
        exact H.recvEntry he (hw k hk hlt e he)
      | none =>
        rw [he] at h2
        cases poll with
        | none =>
          rw [← Option.some.inj h2]
          exact H.recvNothing
        | some p =>
          dsimp only at h2
          split_ifs at h2 with hd hz
          · rw [← Option.some.inj h2]
            exact H.recvData (ht.2 p rfl) hd
          · rw [← Option.some.inj h2]
            exact H
    · rw [← Option.some.inj h2]
      exact ⟨H.delivered, H.bound, H.entries⟩

/-! ## Runs -/

/-- What has been delivered is the beginning of the stream up to the next expected byte. -/
def Intact (S : ℕ → Byte) (s : Stream) : Prop := s.delivered = slice S 0 s.nextExpectSeq

/-- **Stream integrity** in every transfer in which entries of the reorder buffer are taken as a whole. -/
theorem run_intact (hv : Run.Valid next (fun s a => Transfer S s a ∧ TakesWhole s a) initStream as) :
    Intact S (Run.run next initStream as) := by
  have h0 : StreamOk S initStream := ⟨rfl, Nat.zero_le _, by simp [initStream]⟩
  exact (hv.inv (I := StreamOk S) (fun s a H hok => H.step hok.1 hok.2) h0).delivered

/-! ## Examples -/

/-- The frame with the `n` bytes of the stream from `seq` on. -/
def frame (S : ℕ → Byte) (seq n : ℕ) : Packet where
  length := rtpOffset + rtpHeader + n
  raw := fun i =>
    if i < rtpOffset then 0#8
    else if i = rtpOffset then rtpMagic
    else if i = rtpOffset + 1 then rtpDat
    else if i < rtpOffset + 4 then leByte n (rtpOffset + 3 - i)
    else if i < rtpOffset + rtpHeader then leByte seq (rtpOffset + 7 - i)
    else S (seq + (i - (rtpOffset + rtpHeader)))

/-- A round in which the device has the frame. -/
def arrives (S : ℕ → Byte) (seq n : ℕ) : Act := .round 0 (some (frame S seq n))

/-- A round in which the device has nothing. -/
def idles : Act := .round 0 none

/-- The stream 0, 1, 2, … -/
def counting : ℕ → Byte := fun i => BitVec.ofNat 8 i

/-- Frames out of order and a frame that is taken in two calls. -/
theorem intact_counting : Intact counting (Run.run next initStream
    [.recv 6 0, arrives counting 3 2, arrives counting 0 3, idles, arrives counting 5 4, idles, .recv 3 0,
      idles, idles]) :=
  run_intact (by decide +kernel)

/-- An entry of the reorder buffer is taken in two calls: its first bytes are delivered twice. -/
theorem entry_repeats : ¬ ∀ S as, Run.Valid next (Transfer S) initStream as →
    Intact S (Run.run next initStream as) := by
  intro h
  have h1 : ¬ Intact counting (Run.run next initStream
      [.recv 1 0, arrives counting 0 4, idles, .recv 1 0, idles, idles, .recv 2 0, idles]) := by
    unfold Intact
    decide +kernel
  exact h1 (h counting _ (by decide +kernel))

end RiscvKernel.Net
