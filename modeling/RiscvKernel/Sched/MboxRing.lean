import RiscvKernel.Lib.Run
import RiscvKernel.Lib.Slots
import RiscvKernel.Sched.Transfer

/-!
# The ring of a mailbox

`nwrite` and `nread` count the bytes that have gone through a mailbox since it was opened, and their
remainders are the places in the buffer. Both are `int`s: after 2^31 bytes they are negative, and so are
the remainders. Up to there the ring gives every byte back in its order, and the byte after 2^31 + 1
others goes to a place in front of the buffer (`ringRight_iff`).
-/

namespace RiscvKernel.Sched

open Lib Mm Run

/-! ## The traffic through a mailbox -/

/-- A chunk of a message is put into the ring, or taken out of it. -/
inductive RingAct
  | send (bytes : List Byte)
  | recv (n : ℕ)
deriving DecidableEq

/-- The bytes that have been put in and those that have been taken out, since the mailbox was opened. -/
structure Traffic where
  box : Mailbox
  sent : List Byte
  received : List Byte

/-- The copy loops of `do_mbox_send` and `do_mbox_recv`. -/
def ringStep (t : Traffic) : RingAct → Traffic
  | .send bs =>
    match putBytes bs t.box with
    | some m => ⟨m, t.sent ++ bs, t.received⟩
    | none => t
  | .recv n =>
    match getBytes n t.box with
    | some (bs, m) => ⟨m, t.sent, t.received ++ bs⟩
    | none => t

/-- `used`, and `available_data`. -/
def ringUsed (m : Mailbox) : ℤ := i32 (m.nwrite - m.nread)

/-- What the calls allow for a chunk. -/
def ChunkOk (t : Traffic) : RingAct → Prop
  | .send bs => bs.length ≤ maxMboxLength - ringUsed t.box
  | .recv n => n ≤ ringUsed t.box

instance (t : Traffic) (a : RingAct) : Decidable (ChunkOk t a) := by
  cases a <;> unfold ChunkOk <;> infer_instance

/-- All the indices that the copy loop uses are in the range of the buffer. -/
def IndicesOk (t : Traffic) : RingAct → Prop
  | .send bs => (putBytes bs t.box).isSome
  | .recv n => (getBytes n t.box).isSome

/-- The indices are in range, and what has been received is what was sent, in its order. -/
def RingRight (t : Traffic) (a : RingAct) : Prop :=
  IndicesOk t a ∧ (ringStep t a).received <+: (ringStep t a).sent

/-- The number of bytes that are put in. -/
def bytesSent : List RingAct → ℕ
  | [] => 0
  | .send bs :: as => bs.length + bytesSent as
  | .recv _ :: as => bytesSent as

/-- A mailbox as its first user finds it. -/
structure Fresh (t : Traffic) : Prop where
  nwrite : t.box.nwrite = 0
  nread : t.box.nread = 0
  sent : t.sent = []
  received : t.received = []

variable {m : Mailbox} {sent bs : List Byte} {b : Byte} {r n : ℕ} {t : Traffic} {a : RingAct}
  {as : List RingAct}

theorem ringStep_send (e : putBytes bs t.box = some m) :
    ringStep t (.send bs) = ⟨m, t.sent ++ bs, t.received⟩ := by
  simp only [ringStep, e]

theorem ringStep_recv (e : getBytes n t.box = some (bs, m)) :
    ringStep t (.recv n) = ⟨m, t.sent, t.received ++ bs⟩ := by
  simp only [ringStep, e]

/-! ## The rounds of the calls -/

theorem chunkSize_le (room len done : ℤ) : (chunkSize room len done).1 ≤ room := by
  unfold chunkSize
  dsimp only
  split_ifs <;> dsimp only <;> omega

theorem doBlock_mailboxes (x : Task) (h : Head) (s : Kernel) : (doBlock x h s).mailboxes = s.mailboxes := by
  unfold doBlock
  split_ifs <;> rfl

theorem releaseMailboxSpin_self (i : ℕ) (s : Kernel) :
    (releaseMailboxSpin i s).mailboxes i = { s.mailboxes i with lock := .unlocked } :=
  Function.update_self _ _ _

/-- A wake-up leaves the mailboxes alone. -/
theorem ChunkEnds.mailboxes {h : Head} {pin : Pin} {size : ℤ} {last : Bool} {s s' : Kernel} {o : CopyRound}
    (he : ChunkEnds h pin size last s o s') : s'.mailboxes = s.mailboxes := by
  rcases he with ⟨-, -, rfl⟩ | ⟨pin', -, -, hw⟩
  · rfl
  · exact (wakeupFrom_keeps _ _ _ hw).2.2.1

variable {c i : ℕ} {len done : ℤ} {pin : Pin} {s s' : Kernel} {o : CopyRound}

/-- A round of `do_mbox_send` does nothing to the ring, or puts in a chunk that there is room for. -/
theorem sendRound_act {data : ℕ → Byte} (ht : t.box = s.mailboxes i)
    (h : sendRound c i len data done pin s = some (o, s')) :
    s'.mailboxes i = { t.box with lock := .unlocked } ∨
      ∃ bs, ChunkOk t (.send bs) ∧ IndicesOk t (.send bs) ∧ s'.mailboxes i = (ringStep t (.send bs)).box := by
  rcases sendRound_cases h with ⟨-, -, rfl⟩ | ⟨-, -, -, rfl⟩ | ⟨size, last, m, mem, -, h2, hc, hm, he⟩
  · rw [ht]
    exact Or.inl (releaseMailboxSpin_self _ _)
  · rw [ht, releaseMailboxSpin_self, doBlock_mailboxes]
    exact Or.inl rfl
  · have hle := chunkSize_le (maxMboxLength - i32 ((s.mailboxes i).nwrite - (s.mailboxes i).nread)) len done
    rw [hc] at hle
    rw [← ht] at hm hle h2
    refine Or.inr ⟨_, ?_, Option.isSome_iff_exists.mpr ⟨m, hm⟩, ?_⟩
    · show (((List.range size.toNat).map _).length : ℤ) ≤ maxMboxLength - i32 (t.box.nwrite - t.box.nread)
      rw [List.length_map, List.length_range]
      omega
    · rw [ringStep_send hm, he.mailboxes]
      exact Function.update_self _ _ _

/-- A round of `do_mbox_recv` does nothing to the ring, or takes out a chunk of what is there. -/
theorem recvRound_act (ht : t.box = s.mailboxes i) (h : recvRound c i len done pin s = some (o, s')) :
    s'.mailboxes i = { t.box with lock := .unlocked } ∨
      ∃ n, ChunkOk t (.recv n) ∧ IndicesOk t (.recv n) ∧ s'.mailboxes i = (ringStep t (.recv n)).box := by
  rcases recvRound_cases h with ⟨-, -, rfl⟩ | ⟨-, -, -, rfl⟩ | ⟨size, last, bs, m, mem, -, h2, hc, hm, he⟩
  · rw [ht]
    exact Or.inl (releaseMailboxSpin_self _ _)
  · rw [ht, releaseMailboxSpin_self, doBlock_mailboxes]
    exact Or.inl rfl
  · have hle := chunkSize_le (i32 ((s.mailboxes i).nwrite - (s.mailboxes i).nread)) len done
    rw [hc] at hle
    rw [← ht] at hm hle h2
    refine Or.inr ⟨size.toNat, ?_, Option.isSome_iff_exists.mpr ⟨_, hm⟩, ?_⟩
    · show (size.toNat : ℤ) ≤ i32 (t.box.nwrite - t.box.nread)
      omega
    · rw [ringStep_recv hm, he.mailboxes]
      exact Function.update_self _ _ _

/-! ## The counters -/

theorem i32_succ (x : ℤ) : i32 (i32 x + 1) = i32 (x + 1) := Int.bmod_add_bmod

theorem i32_sub (x y : ℤ) : i32 (i32 x - i32 y) = i32 (x - y) := by
  unfold i32
  rw [Int.bmod_sub_bmod, Int.sub_bmod_bmod]

/-- The place of byte number `k`. For the smallest `int` the remainder is still zero. -/
theorem ringIndex_of_le {k : ℕ} (hk : k ≤ 2 ^ 31) : ringIndex (i32 k) = some (k % 64) := by
  rcases Nat.lt_or_eq_of_le hk with h | rfl
  · rw [i32_eq (by omega) (by exact_mod_cast h)]
    have hk : (k : ℤ).tmod maxMboxLength = (k % 64 : ℕ) := by
      rw [Int.tmod_eq_emod_of_nonneg (Int.natCast_nonneg k)]
      rfl
    unfold ringIndex
    rw [hk, if_pos (Int.natCast_nonneg _), Int.toNat_natCast]
  · decide

/-- The next byte has no place. -/
theorem ringIndex_wrapped : ringIndex (i32 (2 ^ 31 + 1 : ℕ)) = none := by decide

/-- The counters are those of the bytes that have gone through, and the ring holds those that have been
sent from number `r` on. -/
structure RingInv (m : Mailbox) (sent : List Byte) (r : ℕ) : Prop where
  nwrite : m.nwrite = i32 sent.length
  nread : m.nread = i32 r
  taken : r ≤ sent.length
  room : sent.length ≤ r + 64
  int : sent.length ≤ 2 ^ 31 + 1
  window : Window 64 (fun i x => m.buf i = x) r sent

theorem RingInv.used (h : RingInv m sent r) : ringUsed m = sent.length - r := by
  have h1 := h.taken
  have h2 := h.room
  unfold ringUsed
  rw [h.nwrite, h.nread, i32_sub]
  exact i32_eq (by omega) (by omega)

/-! ## Putting bytes in -/

/-- A byte goes to the next place. -/
theorem RingInv.put (h : RingInv m sent r) (hr : sent.length < r + 64) (hn : sent.length ≤ 2 ^ 31)
    (b : Byte) : ∃ m', putByte b m = some m' ∧ RingInv m' (sent ++ [b]) r := by
  have hlen : (sent ++ [b]).length = sent.length + 1 := List.length_append
  refine ⟨{ m with buf := Function.update m.buf (sent.length % 64) b, nwrite := i32 (m.nwrite + 1) }, ?_, ?_⟩
  · unfold putByte
    rw [h.nwrite, ringIndex_of_le hn]
    rfl
  · constructor
    · show i32 (m.nwrite + 1) = _
      rw [h.nwrite, i32_succ, hlen]
      rfl
    · exact h.nread
    · rw [hlen]
      exact Nat.le_succ_of_le h.taken
    · rw [hlen]
      exact hr
    · rw [hlen]
      exact Nat.succ_le_succ hn
    · refine h.window.push (fun k y hk hlt hy => ?_) (Function.update_self _ _ _)
      show Function.update m.buf (sent.length % 64) b (k % 64) = y
      rw [← hy]
      exact Function.update_of_ne (slot_ne hk hlt hr) _ _

/-- The counter has wrapped. -/
theorem RingInv.put_none (h : RingInv m sent r) (hn : sent.length = 2 ^ 31 + 1) : putByte b m = none := by
  unfold putByte
  rw [h.nwrite, hn, ringIndex_wrapped]
  rfl

/-- A chunk that there is room for is put in up to the byte after 2^31 + 1 others. -/
theorem RingInv.putBytes (h : RingInv m sent r) (hr : sent.length + bs.length ≤ r + 64) :
    (sent.length + bs.length ≤ 2 ^ 31 + 1 ∧
      ∃ m', putBytes bs m = some m' ∧ RingInv m' (sent ++ bs) r) ∨
    (2 ^ 31 + 1 < sent.length + bs.length ∧ putBytes bs m = none) := by
  induction bs generalizing m sent with
  | nil =>
    refine Or.inl ⟨h.int, m, rfl, ?_⟩
    rwa [List.append_nil]
  | cons b bs ih =>
    rw [List.length_cons] at hr ⊢
    rw [Sched.putBytes]
    have hint := h.int
    rcases Nat.lt_or_eq_of_le hint with hlt | heq
    · obtain ⟨m1, e, h1⟩ := h.put (by omega) (Nat.le_of_lt_succ hlt) b
      have hlen : (sent ++ [b]).length = sent.length + 1 := List.length_append
      have ih := ih h1 (by omega)
      rw [e, Option.bind_some, List.append_cons, ← Nat.add_assoc, Nat.add_right_comm, ← hlen]
      exact ih
    · rw [h.put_none heq]
      exact Or.inr ⟨by omega, rfl⟩

/-! ## Taking bytes out -/

/-- The byte that is taken is the next in order. -/
theorem RingInv.get (h : RingInv m sent r) (hr : r < sent.length) :
    ∃ m', getByte m = some (sent[r], m') ∧ RingInv m' sent (r + 1) := by
  have hn : r ≤ 2 ^ 31 := by
    have := h.int
    omega
  have hroom := h.room
  refine ⟨{ m with nread := i32 (m.nread + 1) }, ?_, ?_⟩
  · unfold getByte
    rw [h.nread, ringIndex_of_le hn, ← h.window.head hr]
    rfl
  · constructor
    · exact h.nwrite
    · show i32 (m.nread + 1) = _
      rw [h.nread, i32_succ]
      rfl
    · exact hr
    · omega
    · exact h.int
    · exact h.window.pop

theorem RingInv.getBytes (h : RingInv m sent r) (hr : r + n ≤ sent.length) :
    ∃ m', getBytes n m = some ((sent.drop r).take n, m') ∧ RingInv m' sent (r + n) := by
  induction n generalizing m r with
  | zero => exact ⟨m, rfl, h⟩
  | succ n ih =>
    have hlt : r < sent.length := by omega
    obtain ⟨m1, e1, h1⟩ := h.get hlt
    obtain ⟨m2, e2, h2⟩ := ih h1 (by omega)
    refine ⟨m2, ?_, ?_⟩
    · rw [Sched.getBytes, e1]
      simp only [Option.bind_eq_bind, Option.bind_some]
      rw [e2, List.drop_eq_getElem_cons hlt, List.take_succ_cons]
      rfl
    · rw [← Nat.add_assoc, Nat.add_right_comm]
      exact h2

/-! ## Runs -/

/-- The ring is in order, and what has been received is what was sent first. -/
def TrafficInv (t : Traffic) : Prop :=
  RingInv t.box t.sent t.received.length ∧ t.received = t.sent.take t.received.length

theorem Fresh.inv (h : Fresh t) : TrafficInv t := by
  obtain ⟨h1, h2, h3, h4⟩ := h
  constructor
  · rw [h3, h4]
    exact ⟨h1, h2, le_refl 0, Nat.zero_le _, Nat.zero_le _, Window.nil⟩
  · rw [h3, h4]
    rfl

/-- The bytes of one chunk. -/
theorem bytesSent_cons : bytesSent (a :: as) = bytesSent [a] + bytesSent as := by
  cases a with
  | send bs => rfl
  | recv n => exact (Nat.zero_add _).symm

/-- A chunk is put in up to the byte after 2^31 + 1 others. -/
theorem TrafficInv.send (h : TrafficInv t) (hc : ChunkOk t (.send bs)) :
    (t.sent.length + bs.length ≤ 2 ^ 31 + 1 ∧
      ∃ m, putBytes bs t.box = some m ∧ TrafficInv ⟨m, t.sent ++ bs, t.received⟩) ∨
    (2 ^ 31 + 1 < t.sent.length + bs.length ∧ putBytes bs t.box = none) := by
  obtain ⟨hi, hr⟩ := h
  have hc : (bs.length : ℤ) ≤ 64 - ringUsed t.box := hc
  rw [hi.used] at hc
  have hfit : t.sent.length + bs.length ≤ t.received.length + 64 := by omega
  rcases hi.putBytes hfit with ⟨hle, m, e, h1⟩ | ⟨hlt, e⟩
  · refine Or.inl ⟨hle, m, e, h1, ?_⟩
    show t.received = (t.sent ++ bs).take t.received.length
    rw [List.take_append_of_le_length hi.taken]
    exact hr
  · exact Or.inr ⟨hlt, e⟩

/-- A chunk that is taken out is the next in order. -/
theorem TrafficInv.recv (h : TrafficInv t) (hc : ChunkOk t (.recv n)) :
    ∃ bs m, getBytes n t.box = some (bs, m) ∧ bs.length = n ∧
      TrafficInv ⟨m, t.sent, t.received ++ bs⟩ := by
  obtain ⟨hi, hr⟩ := h
  have htaken := hi.taken
  have hc : (n : ℤ) ≤ ringUsed t.box := hc
  rw [hi.used] at hc
  obtain ⟨m, e, h1⟩ := hi.getBytes (n := n) (by omega)
  have hn : ((t.sent.drop t.received.length).take n).length = n := by
    rw [List.length_take, List.length_drop]
    omega
  have hlen : (t.received ++ (t.sent.drop t.received.length).take n).length = t.received.length + n := by
    rw [List.length_append, hn]
  refine ⟨_, m, e, hn, ?_, ?_⟩
  · rw [hlen]
    exact h1
  · rw [hlen, List.take_add, ← hr]

/-- A chunk goes through as it should as long as no more than 2^31 + 1 bytes have been sent with it. -/
theorem ringStep_right (h : TrafficInv t) (hc : ChunkOk t a) :
    (t.sent.length + bytesSent [a] ≤ 2 ^ 31 + 1 ∧ RingRight t a ∧ TrafficInv (ringStep t a) ∧
      (ringStep t a).sent.length = t.sent.length + bytesSent [a]) ∨
    (2 ^ 31 + 1 < t.sent.length + bytesSent [a] ∧ ¬ RingRight t a) := by
  have hprefix : ∀ t' : Traffic, TrafficInv t' → t'.received <+: t'.sent :=
    fun t' h' => List.prefix_iff_eq_take.mpr h'.2
  cases a with
  | send bs =>
    rcases h.send hc with ⟨hle, m, e, h1⟩ | ⟨hlt, e⟩
    · refine Or.inl ⟨hle, ⟨?_, ?_⟩, ?_, ?_⟩
      · exact Option.isSome_iff_exists.mpr ⟨m, e⟩
      · rw [ringStep_send e]
        exact hprefix _ h1
      · rw [ringStep_send e]
        exact h1
      · rw [ringStep_send e]
        exact List.length_append
    · refine Or.inr ⟨hlt, fun h => ?_⟩
      obtain ⟨m, hm⟩ := Option.isSome_iff_exists.mp h.1
      rw [e] at hm
      cases hm
  | recv n =>
    obtain ⟨bs, m, e, -, h1⟩ := h.recv hc
    refine Or.inl ⟨h.1.int, ⟨?_, ?_⟩, ?_, ?_⟩
    · exact Option.isSome_iff_exists.mpr ⟨_, e⟩
    · rw [ringStep_recv e]
      exact hprefix _ h1
    · rw [ringStep_recv e]
      exact h1
    · rw [ringStep_recv e]
      rfl

theorem TrafficInv.right_iff (h : TrafficInv t) (hv : Valid ringStep ChunkOk t as) :
    Valid ringStep RingRight t as ↔ t.sent.length + bytesSent as ≤ 2 ^ 31 + 1 := by
  induction as generalizing t with
  | nil => exact iff_of_true trivial h.1.int
  | cons a as ih =>
    obtain ⟨hc, hv⟩ := hv
    show RingRight t a ∧ _ ↔ _
    rw [bytesSent_cons]
    rcases ringStep_right h hc with ⟨-, h1, h2, hlen⟩ | ⟨hlt, h1⟩
    · rw [and_iff_right h1, ih h2 hv, hlen, Nat.add_assoc]
    · apply iff_of_false
      · exact fun h => h1 h.1
      · omega

/-- Any number of sends and receives, in any order, on a mailbox that stays open: the indices are in range
and the order is kept exactly as long as no more than 2^31 + 1 bytes are sent. -/
theorem ringRight_iff (ht : Fresh t) (hv : Valid ringStep ChunkOk t as) :
    Valid ringStep RingRight t as ↔ bytesSent as ≤ 2 ^ 31 + 1 := by
  have h := ht.inv.right_iff hv
  rwa [ht.sent, List.length_nil, Nat.zero_add] at h

/-- A mailbox after it has been opened. -/
def freshTraffic : Traffic := ⟨⟨.unlocked, fun _ => 0#8, [109#8], 1, 0, 0⟩, [], []⟩

theorem freshTraffic_fresh : Fresh freshTraffic := ⟨rfl, rfl, rfl, rfl⟩

/-- Two bytes go in, one comes out, then the other. -/
theorem ringRight_small :
    Valid ringStep RingRight freshTraffic [.send [1#8, 2#8], .recv 1, .recv 1] ↔ 2 ≤ 2 ^ 31 + 1 :=
  ringRight_iff freshTraffic_fresh (by decide)

/-- The ring is filled and emptied `k` times, and two bytes are sent. -/
def cycles : ℕ → List RingAct
  | 0 => [.send [0#8, 0#8]]
  | k + 1 => .send (List.replicate 64 0#8) :: .recv 64 :: cycles k

theorem bytesSent_cycles (k : ℕ) : bytesSent (cycles k) = 64 * k + 2 := by
  induction k with
  | zero => rfl
  | succ k ih =>
    show (List.replicate 64 0#8).length + bytesSent (cycles k) = _
    rw [ih, List.length_replicate]
    omega

/-- The calls allow it. -/
theorem cycles_ok {k : ℕ} (h : TrafficInv t) (he : t.received.length = t.sent.length)
    (hk : t.sent.length + 64 * k ≤ 2 ^ 31) : Valid ringStep ChunkOk t (cycles k) := by
  have hused : ringUsed t.box = 0 := by
    rw [h.1.used, he, sub_self]
  induction k generalizing t with
  | zero =>
    refine ⟨?_, trivial⟩
    show (2 : ℤ) ≤ 64 - ringUsed t.box
    rw [hused]
    norm_num
  | succ k ih =>
    have hc : ChunkOk t (.send (List.replicate 64 0#8)) := by
      show ((List.replicate 64 0#8).length : ℤ) ≤ 64 - ringUsed t.box
      rw [hused, List.length_replicate]
      norm_num
    obtain ⟨-, m, e, h1⟩ | ⟨hlt, -⟩ := h.send hc
    · have hlen : (t.sent ++ List.replicate 64 0#8).length = t.sent.length + 64 := by
        rw [List.length_append, List.length_replicate]
      have hc1 : ChunkOk ⟨m, t.sent ++ List.replicate 64 0#8, t.received⟩ (.recv 64) := by
        show (64 : ℤ) ≤ ringUsed m
        rw [h1.1.used]
        show (64 : ℤ) ≤ (t.sent ++ List.replicate 64 0#8).length - t.received.length
        rw [hlen, he]
        omega
      obtain ⟨bs, m1, e1, hbs, h2⟩ := h1.recv hc1
      have he2 : (t.received ++ bs).length = (t.sent ++ List.replicate 64 0#8).length := by
        rw [List.length_append, hlen, hbs, he]
      refine ⟨hc, ?_⟩
      rw [ringStep_send e]
      refine ⟨hc1, ?_⟩
      rw [ringStep_recv e1]
      apply ih h2 he2
      · show (t.sent ++ List.replicate 64 0#8).length + 64 * k ≤ 2 ^ 31
        omega
      · rw [h2.1.used, he2, sub_self]
    · rw [List.length_replicate] at hlt
      omega

/-- 2^31 + 2 bytes are too many. -/
theorem ringRight_wrapped : ¬ ∀ t as, Fresh t → Valid ringStep ChunkOk t as →
    Valid ringStep RingRight t as := by
  intro h
  have hf := freshTraffic_fresh
  have hv : Valid ringStep ChunkOk freshTraffic (cycles (2 ^ 25)) :=
    cycles_ok hf.inv rfl (by rw [hf.sent, List.length_nil]; norm_num)
  have hle := (hf.inv.right_iff hv).mp (h _ _ hf hv)
  rw [bytesSent_cycles, hf.sent, List.length_nil] at hle
  norm_num at hle

end RiscvKernel.Sched
