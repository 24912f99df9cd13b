import RiscvKernel.Net.Receiver

/-!
# The reorder buffer

Whether a slot is free is a matter of its length, and whether it is in the queue one of its pointers. The
two agree, and the queue is sorted, in every run in which no packet without data is stored and no entry is
taken in part such that what is left of it belongs behind its successor; and in no other
(`reorder_ok_iff`).
-/

namespace RiscvKernel.Net

open Lib Run

variable {s s' : Receiver} {r : Reorder} {q : List Slot} {k : RecvCall} {p : Packet} {a : Act}
  {as : List Act} {now n seq len start : ℕ} {poll : Option Packet} {i : Slot} {raw : Mem}
  {l : Links Slot Unit}

/-- The slots `q` are the entries of the queue, in the order of their numbers. -/
structure QueueOk (r : Reorder) (q : List Slot) : Prop where
  rings : Rings r.links fun _ => q
  sorted : q.Pairwise fun i j => r.seq i < r.seq j
  linked : ∀ i, i ∈ q ↔ r.len i ≠ 0
  fits : ∀ i, r.len i ≤ entryDataSize

/-- The queue is in order, `get_reorder_slot` returns slots that are not in it, and every walk over it
comes to an end. -/
structure ReorderOk (r : Reorder) : Prop where
  queue : ∃ q, QueueOk r q ∧ ∀ i, r.getReorderSlot = some i → i ∉ q
  find : ∀ judge, Links.findFrom () judge r.links Reorder.slotFuel (r.links.next (.inr ())) ≠ none
  place : ∀ front, Links.placeFrom () front r.links Reorder.slotFuel (r.links.next (.inr ())) ≠ none

/-! ## Queues -/

theorem QueueOk.length_lt (h : QueueOk r q) : q.length < Reorder.slotFuel := by
  have hq := (h.rings.nodup ()).length_le_card
  rw [Fintype.card_fin] at hq
  exact Nat.lt_succ_of_le hq

theorem QueueOk.find (h : QueueOk r q) (seq : ℕ) :
    r.getReorderEntry seq = some (q.find? fun i => r.seq i = seq) :=
  Rings.findFrom (h.rings.seg ()) h.length_lt

theorem getReorderSlot_len (h : r.getReorderSlot = some i) : r.len i = 0 := by
  simpa using List.find?_some h

theorem QueueOk.slot (h : QueueOk r q) (hi : r.getReorderSlot = some i) : i ∉ q :=
  fun hm => (h.linked i).mp hm (getReorderSlot_len hi)

theorem QueueOk.ok (h : QueueOk r q) : ReorderOk r where
  queue := ⟨q, h, fun _ => h.slot⟩
  find judge := by
    rw [Rings.findFrom (h.rings.seg ()) h.length_lt]
    exact Option.some_ne_none _
  place front := by
    rw [Rings.placeFrom (h.rings.seg ()) h.length_lt]
    exact Option.some_ne_none _

theorem reorderOk_iff : ReorderOk r ↔ ∃ q, QueueOk r q := by
  constructor
  · rintro ⟨⟨q, h, -⟩, -, -⟩
    exact ⟨q, h⟩
  · rintro ⟨q, h⟩
    exact h.ok

/-- The pointers determine the queue. -/
theorem QueueOk.unique {q' : List Slot} (h : QueueOk r q) (h' : Rings r.links fun _ => q') : q = q' :=
  congrFun (h.rings.unique h') ()

theorem update_unit {α : Type*} (f : Unit → α) (x : α) : Function.update f () x = fun _ => x :=
  funext fun _ => Function.update_self _ _ _

/-! ## An entry is taken -/

/-- An entry that is taken as a whole. -/
theorem QueueOk.drop {xs ys : List Slot} (h : QueueOk r (xs ++ i :: ys)) :
    QueueOk (r.dropSlot i) (xs ++ ys) := by
  have hnd := List.nodup_middle.mp (h.rings.nodup ())
  have hi : i ∉ xs ++ ys := (List.nodup_cons.mp hnd).1
  have hne : ∀ j ∈ xs ++ ys, j ≠ i := fun j hj e => hi (e ▸ hj)
  refine ⟨?_, ?_, fun j => ?_, fun j => ?_⟩
  · have := h.rings.delNode (k := ()) rfl
    rwa [update_unit] at this
  · have hsub : (xs ++ ys).Sublist (xs ++ i :: ys) := (List.sublist_cons_self i ys).append_left xs
    refine (h.sorted.sublist hsub).imp_of_mem fun {a b} ha hb hlt => ?_
    show Function.update r.seq i 0 a < Function.update r.seq i 0 b
    rwa [Function.update_of_ne (hne a ha), Function.update_of_ne (hne b hb)]
  · show _ ↔ Function.update r.len i 0 j ≠ 0
    by_cases hj : j = i
    · rw [hj, Function.update_self]
      exact iff_of_false hi fun h0 => h0 rfl
    · rw [Function.update_of_ne hj, ← h.linked j, List.mem_append, List.mem_append, List.mem_cons,
        or_iff_right hj]
  · show Function.update r.len i 0 j ≤ _
    by_cases hj : j = i
    · rw [hj, Function.update_self]
      exact Nat.zero_le _
    · rw [Function.update_of_ne hj]
      exact h.fits j

/-- The number lies between those of the neighbours of slot `i`. -/
def Between (i : Slot) (seq : ℕ) (r : Reorder) : Prop :=
  ∀ j, j ≠ i → r.len j ≠ 0 → (r.seq j < r.seq i → r.seq j < seq) ∧ (r.seq i < r.seq j → seq < r.seq j)

instance (i : Slot) (seq : ℕ) (r : Reorder) : Decidable (Between i seq r) :=
  inferInstanceAs (Decidable (∀ _, _))

/-- The order of the numbers of two entries is that of their places. -/
theorem sorted_shorten {v : ℕ} (h : QueueOk r q) (hi : i ∈ q) :
    (q.Pairwise fun a b => Function.update r.seq i v a < Function.update r.seq i v b) ↔ Between i v r := by
  obtain ⟨xs, ys, rfl⟩ := List.append_of_mem hi
  have hnd := List.nodup_middle.mp (h.rings.nodup ())
  have hx : ∀ j ∈ xs, j ≠ i := fun j hj e =>
    (List.nodup_cons.mp hnd).1 (List.mem_append_left _ (e ▸ hj))
  have hy : ∀ j ∈ ys, j ≠ i := fun j hj e =>
    (List.nodup_cons.mp hnd).1 (List.mem_append_right _ (e ▸ hj))
  obtain ⟨h1, h2, h3⟩ := List.pairwise_append.mp h.sorted
  obtain ⟨h4, h5⟩ := List.pairwise_cons.mp h2
  constructor
  · intro hp j hj hl
    obtain ⟨-, p2, p3⟩ := List.pairwise_append.mp hp
    obtain ⟨p4, -⟩ := List.pairwise_cons.mp p2
    rcases List.mem_append.mp ((h.linked j).mpr hl) with hm | hm
    · have hlt := h3 j hm i List.mem_cons_self
      have := p3 j hm i List.mem_cons_self
      rw [Function.update_self, Function.update_of_ne hj] at this
      exact ⟨fun _ => this, fun hgt => absurd hgt hlt.not_gt⟩
    · have hm := (List.mem_cons.mp hm).resolve_left hj
      have hlt := h4 j hm
      have := p4 j hm
      rw [Function.update_self, Function.update_of_ne hj] at this
      exact ⟨fun hgt => absurd hgt hlt.not_gt, fun _ => this⟩
  · intro hb
    have hlow : ∀ j ∈ xs, r.seq j < v := fun j hj =>
      (hb j (hx j hj) ((h.linked j).mp (List.mem_append_left _ hj))).1 (h3 j hj i List.mem_cons_self)
    have hhigh : ∀ j ∈ ys, v < r.seq j := fun j hj =>
      (hb j (hy j hj) ((h.linked j).mp (List.mem_append_right _ (List.mem_cons_of_mem _ hj)))).2 (h4 j hj)
    have hkeep : ∀ {zs : List Slot}, (∀ j ∈ zs, j ≠ i) → (zs.Pairwise fun a b => r.seq a < r.seq b) →
        zs.Pairwise fun a b => Function.update r.seq i v a < Function.update r.seq i v b := by
      intro zs hz hp
      refine hp.imp_of_mem fun {a b} ha hb hlt => ?_
      rwa [Function.update_of_ne (hz a ha), Function.update_of_ne (hz b hb)]
    refine List.pairwise_append.mpr ⟨hkeep hx h1, List.pairwise_cons.mpr ⟨fun j hj => ?_, hkeep hy h5⟩,
      fun j hj m hm => ?_⟩
    · rw [Function.update_self, Function.update_of_ne (hy j hj)]
      exact hhigh j hj
    · rw [Function.update_of_ne (hx j hj)]
      rcases List.mem_cons.mp hm with rfl | hm
      · rw [Function.update_self]
        exact hlow j hj
      · rw [Function.update_of_ne (hy m hm)]
        exact h3 j hj m (List.mem_cons_of_mem _ hm)

/-- An entry that is taken in part: its place is right if its new number is between its neighbours. -/
theorem shorten_ok_iff (h : QueueOk r q) (hi : i ∈ q) (hn : n < r.len i) :
    ReorderOk (r.shortenSlot i n) ↔ Between i (u32 (r.seq i + n)) r := by
  rw [reorderOk_iff, ← sorted_shorten h hi]
  constructor
  · rintro ⟨q', h'⟩
    obtain rfl : q = q' := h.unique h'.rings
    exact h'.sorted
  · intro hs
    refine ⟨q, h.rings, hs, fun j => ?_, fun j => ?_⟩
    · show _ ↔ Function.update r.len i (r.len i - n) j ≠ 0
      by_cases hj : j = i
      · rw [hj, Function.update_self]
        exact iff_of_true hi (Nat.sub_ne_zero_of_lt hn)
      · rw [Function.update_of_ne hj]
        exact h.linked j
    · show Function.update r.len i (r.len i - n) j ≤ _
      by_cases hj : j = i
      · rw [hj, Function.update_self]
        exact (Nat.sub_le _ _).trans (h.fits i)
      · rw [Function.update_of_ne hj]
        exact h.fits j

/-! ## A packet is stored -/

/-- A packet gets the place that its number has in the queue; a slot without data is in the queue then, and
free. -/
theorem stored_ok_iff (h : QueueOk r q) (hseq : r.getReorderEntry seq = some none)
    (hi : r.Inserts i l seq len raw start) (hlen : len ≤ entryDataSize) :
    ReorderOk (r.stored i l seq len raw start) ↔ len ≠ 0 := by
  have hiq := h.slot hi.1
  have hne : ∀ j ∈ q, j ≠ i := fun j hj e => hiq (e ▸ hj)
  obtain ⟨l', e, hr⟩ := h.rings.insertSorted (k := ()) (r.fillSlot i seq len raw start).compareSeq
    h.length_lt fun _ => hiq
  obtain rfl : l' = l := by
    have := hi.2
    unfold Reorder.insertSlot at this
    have e : Links.insertSorted i () (r.fillSlot i seq len raw start).compareSeq Reorder.slotFuel
      (r.fillSlot i seq len raw start).links = some l' := e
    rw [e] at this
    exact congrArg Reorder.links (Option.some.inj this)
  rw [update_unit] at hr
  generalize hq' : List.takeWhile _ q ++ i :: List.dropWhile _ q = q' at hr
  have hmem : ∀ j, j ∈ q' ↔ j = i ∨ j ∈ q := by
    intro j
    rw [← hq', List.perm_middle.mem_iff, List.mem_cons, List.takeWhile_append_dropWhile]
  rw [reorderOk_iff]
  constructor
  · rintro ⟨q'', h''⟩ h0
    obtain rfl : q'' = q' := h''.unique hr
    refine (h''.linked i).mp ((hmem i).mpr (Or.inl rfl)) ?_
    show Function.update r.len i len i = 0
    rw [Function.update_self, h0]
  · intro h0
    refine ⟨q', hr, ?_, fun j => ?_, fun j => ?_⟩
    · rw [← hq']
      refine pairwise_insert (Function.update r.seq i seq) ?_ fun j hj => ?_
      · refine h.sorted.imp_of_mem fun {a b} ha hb hlt => ?_
        rwa [Function.update_of_ne (hne a ha), Function.update_of_ne (hne b hb)]
      · rw [Function.update_of_ne (hne j hj), Function.update_self]
        rw [h.find] at hseq
        have := List.find?_eq_none.mp (Option.some.inj hseq) j hj
        simpa using this
    · rw [hmem]
      show _ ↔ Function.update r.len i len j ≠ 0
      by_cases hj : j = i
      · rw [hj, Function.update_self]
        exact iff_of_true (Or.inl rfl) h0
      · rw [Function.update_of_ne hj, or_iff_right hj]
        exact h.linked j
    · show Function.update r.len i len j ≤ _
      by_cases hj : j = i
      · rwa [hj, Function.update_self]
      · rw [Function.update_of_ne hj]
        exact h.fits j

/-! ## Rounds and runs -/

/-- `e1000_poll` returns frames of at most `RX_PKT_SIZE` bytes; what is said to be the data of a data packet
is in the frame. -/
def Act.Whole : Act → Prop
  | .round _ poll => ∀ p ∈ poll, p.length ≤ rxPktSize ∧
      (p.isData = true → rtpOffset + rtpHeader + p.len ≤ p.length)
  | _ => True

instance : ∀ a, Decidable (Act.Whole a)
  | .recv _ _ => isTrue trivial
  | .round _ poll => inferInstanceAs (Decidable (∀ p ∈ poll, _ ∧ (_ → _)))
  | .reset => isTrue trivial

/-- What is left of the entry that is expected keeps its place. -/
def LeftFits (s : Receiver) (k : RecvCall) : Prop :=
  ∀ i, s.reorder.getReorderEntry s.nextExpectSeq = some (some i) →
    k.copyLen (s.reorder.len i) < s.reorder.len i →
      Between i (u32 (s.reorder.seq i + k.copyLen (s.reorder.len i))) s.reorder

/-- A packet that comes too early and is stored has data. -/
def StoresData (s : Receiver) (p : Packet) : Prop :=
  s.nextExpectSeq < p.seq → WouldStore s.nextExpectSeq p.seq s.reorder → p.len ≠ 0

/-- What is left of an entry keeps its place, and no packet without data is stored. -/
def RoundKeeps (s : Receiver) : Act → Prop
  | .round _ poll => ∀ k ∈ s.call, k.received < k.wanted →
      LeftFits s k ∧ (s.reorder.getReorderEntry s.nextExpectSeq = some none →
        ∀ p ∈ poll, p.isData = true → StoresData s p)
  | _ => True

instance (s : Receiver) (k : RecvCall) : Decidable (LeftFits s k) :=
  inferInstanceAs (Decidable (∀ i : Slot, _ → _ → Between i _ _))

instance (s : Receiver) (p : Packet) : Decidable (StoresData s p) :=
  inferInstanceAs (Decidable (_ → WouldStore _ _ _ → _))

instance (s : Receiver) : ∀ a, Decidable (RoundKeeps s a)
  | .recv _ _ => isTrue trivial
  | .round _ poll => inferInstanceAs (Decidable (∀ k ∈ s.call, _ → LeftFits s k ∧
      (_ → ∀ p ∈ poll, p.isData = true → StoresData s p)))
  | .reset => isTrue trivial

/-- An entry is taken, as a whole or in part. -/
theorem recvEntry_ok_iff (now : ℕ) (k : RecvCall) (h : QueueOk s.reorder q) (hi : i ∈ q) :
    ReorderOk (s.recvEntry now i k).reorder ↔
      (k.copyLen (s.reorder.len i) < s.reorder.len i →
        Between i (u32 (s.reorder.seq i + k.copyLen (s.reorder.len i))) s.reorder) := by
  show ReorderOk (if _ then s.reorder.shortenSlot i _ else s.reorder.dropSlot i) ↔ _
  by_cases hn : k.copyLen (s.reorder.len i) < s.reorder.len i
  · rw [if_pos hn, shorten_ok_iff h hi hn]
    exact ⟨fun hb _ => hb, fun hb => hb hn⟩
  · rw [if_neg hn]
    obtain ⟨xs, ys, rfl⟩ := List.append_of_mem hi
    exact iff_of_true h.drop.ok fun hc => absurd hc hn

/-- A data packet. -/
theorem recvData_ok_iff (now : ℕ) (k : RecvCall) (h : QueueOk s.reorder q) (he : s.reorder.getReorderEntry n = some none)
    (hlen : p.len ≤ entryDataSize) :
    ∃ s', s.recvData now p k = some s' ∧ (ReorderOk s'.reorder ↔ StoresData s p) := by
  rcases recvData_cases he now p k with
    ⟨h1, ⟨-, e⟩ | ⟨i, l, hw, hi, e⟩⟩ | ⟨h1, ⟨hw, e⟩ | ⟨i, l, hw, hi, e⟩⟩ | ⟨h1, e⟩
  · refine ⟨_, e, iff_of_true ?_ fun hc => absurd h1 hc.ne'⟩
    show ReorderOk (s.saveHeader p).reorder
    rw [saveHeader_reorder]
    exact h.ok
  · -- the end of the expected packet is not empty
    refine ⟨_, e, iff_of_true ?_ fun hc => absurd h1 hc.ne'⟩
    show ReorderOk ((s.saveHeader p).reorder.stored i l _ _ _ _)
    rw [saveHeader_reorder, saveHeader_nextExpectSeq, stored_ok_iff h hw.2.2.2.1 hi (by omega)]
    exact Nat.sub_ne_zero_of_lt hw.1
  · refine ⟨_, e, iff_of_true ?_ fun _ hc => absurd hc hw⟩
    show ReorderOk (s.saveHeader p).reorder
    rw [saveHeader_reorder]
    exact h.ok
  · refine ⟨_, e, ?_⟩
    show ReorderOk ((s.saveHeader p).reorder.stored i l _ _ _ _) ↔ _
    rw [saveHeader_reorder, stored_ok_iff h hw.2.2.1 hi hlen]
    exact ⟨fun h0 _ _ => h0, fun h0 => h0 h1 hw⟩
  · refine ⟨_, e, iff_of_true ?_ fun hc => absurd hc h1.not_gt⟩
    show ReorderOk (s.saveHeader p).reorder
    rw [saveHeader_reorder]
    exact h.ok

/-- A step keeps the reorder buffer in order exactly when it meets the condition. -/
theorem reorder_step_iff (h : ReorderOk s.reorder) (ha : a.Whole) :
    ReorderOk (s.next a).reorder ↔ RoundKeeps s a := by
  obtain ⟨q, hq⟩ := reorderOk_iff.mp h
  cases a with
  | recv wanted now =>
    refine iff_of_true ?_ trivial
    unfold Receiver.next Receiver.step
    split_ifs
    · exact h
    · exact h
  | reset =>
    refine iff_of_true ?_ trivial
    unfold Receiver.next Receiver.step
    split_ifs
    · exact h
    · exact h
  | round now poll =>
    unfold Receiver.next Receiver.step RoundKeeps
    cases hc : s.call with
    | none => exact iff_of_true h nofun
    | some k =>
      simp only [Option.mem_some_iff, forall_eq', Option.bind_some]
      rcases recvRound_cases s now poll hc with
        ⟨hr, e⟩ | ⟨hr, ⟨he, e⟩ | ⟨i, he, e⟩ | ⟨he, ⟨hp, s', e, hi⟩ | ⟨p, rfl, hd, e⟩⟩⟩
      · rw [e]
        exact iff_of_true h fun hc => absurd hc hr
      · rw [hq.find] at he
        cases he
      · -- an entry
        rw [e]
        have hm : i ∈ q := by
          rw [hq.find] at he
          exact List.mem_of_find?_eq_some (Option.some.inj he)
        have hiff := recvEntry_ok_iff (s := { s with accesses := [] }) now k hq hm
        refine Iff.trans hiff ⟨fun hb _ => ⟨fun j hj => ?_, fun hno => ?_⟩, fun hb => (hb hr).1 i he⟩
        · obtain rfl := Option.some.inj (Option.some.inj (he.symm.trans hj))
          exact hb
        · have := he.symm.trans hno
          cases this
      · -- no data packet
        rw [e]
        refine iff_of_true ?_ fun _ => ⟨fun j hj => ?_, fun _ p hpp hd => ?_⟩
        · show ReorderOk s'.reorder
          rw [hi.reorder]
          exact h
        · rw [he] at hj
          cases hj
        · rw [hp p hpp] at hd
          cases hd
      · -- a data packet
        generalize hs0 : { s with accesses := [] }.access (.raw rtpOffset rtpHeader) = s0 at e
        have hr0 : s0.reorder = s.reorder := by rw [← hs0]; rfl
        have hn0 : s0.nextExpectSeq = s.nextExpectSeq := by rw [← hs0]; rfl
        obtain ⟨hle, hw⟩ := ha p rfl
        have hlen : p.len ≤ entryDataSize := by
          have := hw hd
          have : entryDataSize = rxPktSize := rfl
          omega
        have hiff0 : StoresData s0 p ↔ StoresData s p := by
          unfold StoresData
          rw [hr0, hn0]
        obtain ⟨s', e', hiff⟩ := recvData_ok_iff now k (hr0 ▸ hq) (hr0 ▸ he) hlen
        rw [e, e']
        refine (hiff.trans hiff0).trans ⟨fun hb _ => ⟨fun j hj => ?_, fun _ p' hp' _ => ?_⟩, fun hb => ?_⟩
        · have := he.symm.trans hj
          cases this
        · obtain rfl := Option.some.inj hp'
          exact hb
        · exact (hb hr).2 he p rfl hd

/-- For all sequences of calls and frames, the reorder buffer is in order in every state exactly when no
packet without data is stored and what is left of an entry always keeps its place. -/
theorem reorder_ok_iff (h : ReorderOk s.reorder) (ha : ∀ a ∈ as, a.Whole) :
    Valid Receiver.next RoundKeeps s as ↔ ∀ m, ReorderOk (run Receiver.next s (as.take m)).reorder :=
  valid_iff_inv_take (I := fun s : Receiver => ReorderOk s.reorder) (fun _ a hm hs => reorder_step_iff hs (ha a hm)) h

theorem queueOk_init : QueueOk initReceiver.reorder [] where
  rings := ⟨fun _ => ⟨rfl, rfl⟩, fun _ => List.nodup_nil, nofun⟩
  sorted := List.Pairwise.nil
  linked _ := iff_of_false List.not_mem_nil fun h => h rfl
  fits _ := Nat.zero_le _

/-- Two frames that come too early, in the wrong order, and then the one before them, of which the user
takes all and then one byte of the next. -/
theorem reorder_ok_partial :
    Valid Receiver.next RoundKeeps initReceiver
        [.recv 5 0, .round 0 (some (dataPacket 66 8 4)), .round 0 (some (dataPacket 66 4 4)),
          .round 0 (some (dataPacket 66 0 4)), .round 0 none] ↔
      ∀ m, ReorderOk (run Receiver.next initReceiver
        ([.recv 5 0, .round 0 (some (dataPacket 66 8 4)), .round 0 (some (dataPacket 66 4 4)),
          .round 0 (some (dataPacket 66 0 4)), .round 0 none].take m)).reorder :=
  reorder_ok_iff queueOk_init.ok (by decide)

/-- A packet without data that comes too early is in the queue, and its slot is free. -/
theorem reorder_empty :
    ¬ ∀ as : List Act, (∀ a ∈ as, a.Whole) → ∀ m, ReorderOk (run Receiver.next initReceiver (as.take m)).reorder := by
  intro h
  have h1 : ReorderOk (initReceiver.next (.recv 8 0)).reorder := queueOk_init.ok
  have h2 : ReorderOk ((initReceiver.next (.recv 8 0)).next (.round 0 (some (dataPacket 62 4 0)))).reorder :=
    h [.recv 8 0, .round 0 (some (dataPacket 62 4 0))] (by decide) 2
  exact absurd ((reorder_step_iff h1 (by decide)).mp h2) (by decide +kernel)

end RiscvKernel.Net
