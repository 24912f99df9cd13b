import RiscvKernel.Net.Integrity

/-!
# What has been acknowledged

An acknowledgement covers the whole frame, also when the user takes only a part of it. What is left has to
wait in the reorder buffer, which may have no slot for it or an entry with the same sequence number that is
shorter. As long as neither happens, all acknowledged bytes have been delivered or wait in the entry that
is expected next.
-/

namespace RiscvKernel.Net

open Lib

variable {S : ℕ → Byte} {s s' : Stream} {k : RecvCall} {e : Entry} {p : Packet} {q : List Entry}
  {a : Act} {as : List Act} {now : ℕ}

/-- What is left of the frame that is expected finds its place in the reorder buffer. -/
def RestFits (s : Stream) : Act → Prop
  | .round _ (some p) => p.isData → ∀ k ∈ s.call, k.received < k.wanted →
      getReorderEntry s.nextExpectSeq s.reorderQueue = none → p.seq = s.nextExpectSeq → k.copyLen p.len < p.len →
      match getReorderEntry (s.nextExpectSeq + k.copyLen p.len) s.reorderQueue with
      | some e => p.len - k.copyLen p.len ≤ e.len
      | none => s.reorderQueue.length < maxReorderNum
  | _ => True

instance decidableRest (s : Stream) (p : Packet) (k : RecvCall) : Decidable
    (match getReorderEntry (s.nextExpectSeq + k.copyLen p.len) s.reorderQueue with
      | some e => p.len - k.copyLen p.len ≤ e.len
      | none => s.reorderQueue.length < maxReorderNum) := by
  split <;> infer_instance

instance (s : Stream) : ∀ a, Decidable (RestFits s a)
  | .recv _ _ => isTrue trivial
  | .round _ none => isTrue trivial
  | .round _ (some _) => inferInstanceAs (Decidable (_ → ∀ k ∈ s.call, _ → _ → _ → _ → _))
  | .reset => isTrue trivial

/-- All bytes in front of an acknowledged number have been delivered or are in the reorder buffer. -/
def AckedKept (S : ℕ → Byte) (s : Stream) : Prop :=
  ∀ a, .ack a ∈ s.sent → ∀ j < a, s.delivered[j]? = some (S j) ∨
    ∃ e ∈ s.reorderQueue, e.seq ≤ j ∧ j < e.seq + e.len ∧ e.data[j - e.seq]? = some (S j)

/-- The invariant: acknowledged bytes that have not been delivered are in the entry that is expected. -/
structure AckedOk (S : ℕ → Byte) (s : Stream) : Prop where
  ok : StreamOk S s
  unique : (s.reorderQueue.map Entry.seq).Nodup
  acked : ∀ a, .ack a ∈ s.sent → a ≤ s.nextExpectSeq ∨
    ∃ e ∈ s.reorderQueue, e.seq = s.nextExpectSeq ∧ a ≤ s.nextExpectSeq + e.len

theorem AckedOk.kept (H : AckedOk S s) : AckedKept S s := by
  intro a ha j hj
  by_cases hd : j < s.nextExpectSeq
  · left
    rw [H.ok.delivered, slice_getElem? hd, Nat.zero_add]
  · right
    obtain ⟨e, he, hs, hle⟩ := (H.acked a ha).resolve_left (by omega)
    refine ⟨e, he, by omega, by omega, ?_⟩
    rw [(H.ok.entries e he).data, slice_getElem? (by omega)]
    exact congrArg (fun i => some (S i)) (by omega)

/-! ## The list -/

theorem getReorderEntry_none {seq : ℕ} : getReorderEntry seq q = none ↔ ∀ e ∈ q, e.seq ≠ seq := by
  simp [getReorderEntry]

/-- In a list without repeated numbers the entry is the one that is found. -/
theorem getReorderEntry_unique (hq : (q.map Entry.seq).Nodup) {x : Entry} {seq : ℕ}
    (he : getReorderEntry seq q = some e) (hx : x ∈ q) (hs : x.seq = seq) : x = e := by
  obtain ⟨hmem, hseq⟩ := getReorderEntry_mem he
  exact List.inj_on_of_nodup_map hq hx hmem (hs.trans hseq.symm)

theorem map_listInsert_perm (e : Entry) (q : List Entry) : (listInsert e q).Perm (e :: q) := by
  induction q with
  | nil => exact List.Perm.refl _
  | cons x xs ih =>
    rw [listInsert]
    split_ifs
    · exact List.Perm.refl _
    · exact (ih.cons x).trans (List.Perm.swap e x xs)

theorem updateEntry_sublist {seq : ℕ} {f : Entry → Option Entry}
    (hf : ∀ x ∈ getReorderEntry seq q, f x = none) : (updateEntry seq f q).Sublist q := by
  induction q with
  | nil => exact List.Sublist.refl _
  | cons y ys ih =>
    rw [updateEntry]
    split_ifs with h
    · rw [hf y (by simp [getReorderEntry, h])]
      exact List.sublist_cons_self y ys
    · have h1 : getReorderEntry seq (y :: ys) = getReorderEntry seq ys := by
        simp [getReorderEntry, h]
      exact (ih (h1 ▸ hf)).cons_cons y

/-- What `insert_reorder_packet` does to the list. -/
theorem insertReorderPacket_queue (seq len : ℕ) (data : List Byte) :
    (insertReorderPacket seq len data s).reorderQueue = s.reorderQueue ∨
    (getReorderEntry seq s.reorderQueue = none ∧
      (insertReorderPacket seq len data s).reorderQueue = listInsert ⟨seq, len, data⟩ s.reorderQueue) := by
  unfold insertReorderPacket
  split_ifs with h1 h2 h3 h4
  · exact Or.inl rfl
  · exact Or.inl rfl
  · exact Or.inl rfl
  · exact Or.inl rfl
  · exact Or.inr ⟨by simpa using h3, rfl⟩

theorem insertReorderPacket_frame (seq len : ℕ) (data : List Byte) :
    (insertReorderPacket seq len data s).nextExpectSeq = s.nextExpectSeq ∧
    (insertReorderPacket seq len data s).sent = s.sent ∧
    s.reorderQueue ⊆ (insertReorderPacket seq len data s).reorderQueue := by
  refine ⟨?_, ?_, ?_⟩
  · unfold insertReorderPacket
    split_ifs <;> rfl
  · unfold insertReorderPacket
    split_ifs <;> rfl
  · rcases insertReorderPacket_queue (s := s) seq len data with h | ⟨-, h⟩
    · rw [h]
      exact List.Subset.refl _
    · rw [h]
      exact fun x hx => mem_listInsert.2 (Or.inr hx)

/-- An entry with the number of the next expected byte finds its place if there is a slot. -/
theorem insertReorderPacket_fits {len : ℕ} {data : List Byte} (hb : s.nextExpectSeq ≤ seqEnd)
    (hn : getReorderEntry s.nextExpectSeq s.reorderQueue = none)
    (hl : s.reorderQueue.length < maxReorderNum) :
    ⟨s.nextExpectSeq, len, data⟩ ∈ (insertReorderPacket s.nextExpectSeq len data s).reorderQueue := by
  have hw : ¬ u32 (s.nextExpectSeq + rtpWindowSize) < s.nextExpectSeq := by
    simp only [u32, rtpWindowSize, seqEnd, rxPktSize] at hb ⊢
    omega
  unfold insertReorderPacket
  rw [if_neg (lt_irrefl _), if_neg hw, hn, if_neg (by simp), if_neg (by omega)]
  exact mem_listInsert.2 (Or.inl rfl)

/-! ## Rounds -/

theorem AckedOk.frame (H : AckedOk S s) (k : Option RecvCall) : AckedOk S { s with call := k } :=
  ⟨H.ok.frame k s.sent, H.unique, H.acked⟩

/-- A packet is sent that acknowledges nothing new. -/
theorem AckedOk.send (H : AckedOk S s) (k : Option RecvCall) {c : Control}
    (hc : ∀ a, c = .ack a → a ≤ s.nextExpectSeq) : AckedOk S { s with sent := s.sent ++ [c], call := k } := by
  refine ⟨H.ok.frame k _, H.unique, fun a ha => ?_⟩
  rcases List.mem_append.1 ha with ha | ha
  · exact H.acked a ha
  · exact Or.inl (hc a (List.mem_singleton.1 ha).symm)

theorem AckedOk.insert (H : AckedOk S s) {seq len : ℕ} {data : List Byte} (he : EntryOk S ⟨seq, len, data⟩) :
    AckedOk S (insertReorderPacket seq len data s) := by
  obtain ⟨hnext, hsent, hsub⟩ := insertReorderPacket_frame (s := s) seq len data
  refine ⟨H.ok.insert he, ?_, fun a ha => ?_⟩
  · rcases insertReorderPacket_queue (s := s) seq len data with h | ⟨hn, h⟩
    · rw [h]
      exact H.unique
    · rw [h, ((map_listInsert_perm _ _).map Entry.seq).nodup_iff, List.map_cons, List.nodup_cons]
      refine ⟨fun hmem => ?_, H.unique⟩
      obtain ⟨x, hx, hs⟩ := List.mem_map.1 hmem
      exact getReorderEntry_none.1 hn x hx hs
  · rw [hsent] at ha
    rw [hnext]
    exact (H.acked a ha).imp_right fun ⟨x, hx, h1, h2⟩ => ⟨x, hsub hx, h1, h2⟩

/-- The entry that is expected is delivered with all its bytes. -/
theorem AckedOk.recvEntry (H : AckedOk S s) (he : getReorderEntry s.nextExpectSeq s.reorderQueue = some e)
    (hw : (e.len : ℤ) ≤ k.wanted - k.received) : AckedOk S (recvEntry now e k s) := by
  obtain ⟨hmem, hseq⟩ := getReorderEntry_mem he
  have hbound := (H.ok.entries e hmem).bound
  have hn : k.copyLen e.len = e.len := by
    unfold RecvCall.copyLen
    split_ifs <;> omega
  have hlen : u32 (s.nextExpectSeq + e.len) = s.nextExpectSeq + e.len := u32_eq (by omega)
  have hnext : (Net.recvEntry now e k s).nextExpectSeq = s.nextExpectSeq + e.len := by
    show u32 (s.nextExpectSeq + k.copyLen e.len) = _
    rw [hn, hlen]
  refine ⟨H.ok.recvEntry he hw, ?_, fun a ha => Or.inl ?_⟩
  · refine H.unique.sublist (List.Sublist.map _ (updateEntry_sublist fun y hy => ?_))
    rw [he] at hy
    cases hy
    rw [takeEntry, hn, if_neg (lt_irrefl _)]
  · rw [hnext]
    have ha : .ack a ∈ s.sent ++ [.ack (u32 (s.nextExpectSeq + e.len))] := ha
    rw [hlen, List.mem_append, List.mem_singleton] at ha
    rcases ha with ha | ha
    · rcases H.acked a ha with h1 | ⟨x, hx, h1, h2⟩
      · omega
      · rw [getReorderEntry_unique H.unique he hx h1] at h2
        exact h2
    · cases ha
      exact le_rfl

/-- The frame that is expected. -/
theorem AckedOk.recvExpected (H : AckedOk S s) (hp : FrameOf S p) (hd : p.isData) (hs : p.seq = s.nextExpectSeq)
    (hnone : getReorderEntry s.nextExpectSeq s.reorderQueue = none)
    (hfit : k.copyLen p.len < p.len →
      match getReorderEntry (s.nextExpectSeq + k.copyLen p.len) s.reorderQueue with
      | some e => p.len - k.copyLen p.len ≤ e.len
      | none => s.reorderQueue.length < maxReorderNum) : AckedOk S (recvExpected p k s) := by
  obtain ⟨H1, hnext⟩ := H.ok.copyData (k := k) hp hd hs
  have hbound := hp.bound hd
  have hle := copyLen_le (k := k) p.len
  have hlen : u32 (s.nextExpectSeq + p.len) = s.nextExpectSeq + p.len := u32_eq (by omega)
  -- all that has been acknowledged before has been delivered
  have hold : ∀ a, .ack a ∈ (copyData p k s).sent → a ≤ s.nextExpectSeq ∨ a = s.nextExpectSeq + p.len := by
    intro a ha
    have ha : .ack a ∈ s.sent ++ [.ack (u32 (s.nextExpectSeq + p.len))] := ha
    rw [hlen, List.mem_append, List.mem_singleton] at ha
    rcases ha with ha | ha
    · exact Or.inl ((H.acked a ha).resolve_right fun ⟨x, hx, h1, _⟩ => getReorderEntry_none.1 hnone x hx h1)
    · cases ha
      exact Or.inr rfl
  have hq : (copyData p k s).reorderQueue = s.reorderQueue := rfl
  have hrest := rest_ok (n := k.copyLen p.len) hp hd
  unfold Net.recvExpected
  dsimp only
  generalize copyData p k s = s1 at H1 hnext hold hq
  have hunique : (s1.reorderQueue.map Entry.seq).Nodup := by
    rw [hq]
    exact H.unique
  split_ifs with h3
  · obtain ⟨hnext', hsent, hsub⟩ := insertReorderPacket_frame (s := s1) s1.nextExpectSeq
      (p.len - k.copyLen p.len) (p.data.drop (k.copyLen p.len))
    have hok : EntryOk S ⟨s1.nextExpectSeq, p.len - k.copyLen p.len, p.data.drop (k.copyLen p.len)⟩ := by
      rw [hnext, ← hs]
      exact hrest h3
    refine ⟨H1.insert hok, ?_, fun a ha => ?_⟩
    · rcases insertReorderPacket_queue (s := s1) s1.nextExpectSeq (p.len - k.copyLen p.len)
        (p.data.drop (k.copyLen p.len)) with h | ⟨hn, h⟩
      · rw [h]
        exact hunique
      · rw [h, ((map_listInsert_perm _ _).map Entry.seq).nodup_iff, List.map_cons, List.nodup_cons]
        refine ⟨fun hmem => ?_, hunique⟩
        obtain ⟨x, hx, hxs⟩ := List.mem_map.1 hmem
        exact getReorderEntry_none.1 hn x hx hxs
    · rw [hsent] at ha
      rw [hnext']
      rcases hold a ha with ha | rfl
      · exact Or.inl (by omega)
      right
      have hfit := hfit h3
      rw [← hnext, ← hq] at hfit
      cases he : getReorderEntry s1.nextExpectSeq s1.reorderQueue with
      | some e =>
        -- an entry is there already
        rw [he] at hfit
        obtain ⟨hmem, hseq⟩ := getReorderEntry_mem he
        have hfit : p.len - k.copyLen p.len ≤ e.len := hfit
        exact ⟨e, hsub hmem, hseq, by omega⟩
      | none =>
        rw [he] at hfit
        exact ⟨_, insertReorderPacket_fits H1.bound he hfit, rfl, by dsimp only; omega⟩
  · refine ⟨H1, hunique, fun a ha => Or.inl ?_⟩
    rcases hold a ha with ha | rfl <;> omega

/-- A data packet. -/
theorem AckedOk.recvData (H : AckedOk S s) (hp : FrameOf S p) (hd : p.isData)
    (hnone : getReorderEntry s.nextExpectSeq s.reorderQueue = none)
    (hfit : p.seq = s.nextExpectSeq → k.copyLen p.len < p.len →
      match getReorderEntry (s.nextExpectSeq + k.copyLen p.len) s.reorderQueue with
      | some e => p.len - k.copyLen p.len ≤ e.len
      | none => s.reorderQueue.length < maxReorderNum) : AckedOk S (recvData now p k s) := by
  unfold Net.recvData
  split_ifs with h1 h2
  · exact H.recvExpected hp hd h1 hnone (hfit h1)
  · have H1 := H.insert (show EntryOk S ⟨p.seq, p.len, p.data⟩ from
      ⟨hp.data hd, (hp hd).1, hp.bound hd⟩)
    have hsent := (insertReorderPacket_frame (s := s) p.seq p.len p.data).2.1
    have H2 := H1.send (c := .rsd s.nextExpectSeq) (some { k with lastRsdTime := now }) (by simp)
    rw [hsent] at H2
    exact H2
  · refine H.send s.call fun a ha => ?_
    cases ha
    exact le_rfl

theorem AckedOk.step (H : AckedOk S s) (ht : Transfer S s a) (hw : TakesWhole s a) (hr : RestFits s a) :
    AckedOk S (next s a) := by
  cases a with
  | reset => exact ht.elim
  | recv wanted now =>
    have h1 := next_some ht
    simp only [Net.step] at h1
    split_ifs at h1
    rw [← Option.some.inj h1]
    exact H.frame _
  | round now poll =>
    have h1 := next_some ht.1
    obtain ⟨k, hk, h2⟩ := Option.bind_eq_some_iff.1 h1
    unfold recvRound at h2
    split_ifs at h2 with hlt
    · cases he : getReorderEntry s.nextExpectSeq s.reorderQueue with
      | some e =>
        rw [he] at h2
        rw [← Option.some.inj h2]
        exact H.recvEntry he (hw k hk hlt e he)
      | none =>
        rw [he] at h2
        cases poll with
        | none =>
          rw [← Option.some.inj h2]
          unfold recvNothing
          split_ifs
          · exact H.frame _
          · exact H.send _ (by simp)
          · exact H
        | some p =>
          dsimp only at h2
          split_ifs at h2 with hd hz
          · rw [← Option.some.inj h2]
            exact H.recvData (ht.2 p rfl) hd he fun h3 h4 => hr hd k hk hlt he h3 h4
          · rw [← Option.some.inj h2]
            exact H
    · rw [← Option.some.inj h2]
      exact H.frame _

/-! ## Runs -/

/-- **Acknowledged bytes are kept** in every transfer in which what is left of a frame finds its place and
entries are taken as a whole. -/
theorem run_ackedKept
    (hv : Run.Valid next (fun s a => Transfer S s a ∧ TakesWhole s a ∧ RestFits s a) initStream as) :
    AckedKept S (Run.run next initStream as) := by
  have h0 : AckedOk S initStream :=
    ⟨⟨rfl, Nat.zero_le _, by simp [initStream]⟩, by simp [initStream], by simp [initStream]⟩
  exact (hv.inv (I := AckedOk S) (fun s a H hok => H.step hok.1 hok.2.1 hok.2.2) h0).kept

theorem ackedKept_counting : AckedKept counting (Run.run next initStream
    [.recv 6 0, arrives counting 3 2, arrives counting 0 3, idles, arrives counting 5 4]) :=
  run_ackedKept (by decide +kernel)

/-- Bytes 8 and 9 are acknowledged, but an entry of three bytes is in the place of the rest of the frame. -/
theorem acked_lost : ¬ ∀ S as, Run.Valid next (Transfer S) initStream as →
    AckedKept S (Run.run next initStream as) := by
  intro h
  have h1 := h counting [.recv 5 0, arrives counting 5 3, arrives counting 0 10] (by decide +kernel) 10
    (by decide +kernel) 8 (by norm_num)
  have h2 : ¬ ((Run.run next initStream
      [.recv 5 0, arrives counting 5 3, arrives counting 0 10]).delivered[8]? = some (counting 8) ∨
      ∃ e ∈ (Run.run next initStream [.recv 5 0, arrives counting 5 3, arrives counting 0 10]).reorderQueue,
        e.seq ≤ 8 ∧ 8 < e.seq + e.len ∧ e.data[8 - e.seq]? = some (counting 8)) := by
    decide +kernel
  exact h2 h1

end RiscvKernel.Net
