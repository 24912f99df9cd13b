import RiscvKernel.Sched.MboxRing

/-!
# A mailbox as a channel

Any number of processes send to a mailbox and receive from it, each of them blocked in the middle of its
message any number of times. What is received is what was sent, in its order, and every call that
returns has transferred its whole message (`channel_fifo`).
-/

namespace RiscvKernel.Sched

open Lib Mm

/-! ## The bytes in the log -/

/-- The bytes that the events put into mailbox `i`. -/
def sentIn (i : ℕ) : List Event → List Byte
  | [] => []
  | .put j _ bytes :: es => if j = i then bytes ++ sentIn i es else sentIn i es
  | _ :: es => sentIn i es

/-- The bytes that the events take out of mailbox `i`. -/
def receivedIn (i : ℕ) : List Event → List Byte
  | [] => []
  | .got j _ bytes :: es => if j = i then bytes ++ receivedIn i es else receivedIn i es
  | _ :: es => receivedIn i es

namespace MboxCopy

/-- The bytes that the events transfer in the direction of the call. -/
def moved (es : List Event) : MboxCopy → List Byte
  | .send i _ _ => sentIn i es
  | .recv i _ => receivedIn i es

/-- The bytes are those of the message from number `d` on; a receiver takes what comes. -/
def IsPart (d : ℕ) (bytes : List Byte) : MboxCopy → Prop
  | .send _ _ data => bytes = (List.range bytes.length).map fun j => data (d + j)
  | .recv _ _ => True

/-- The call when it goes on after `do_scheduler`. -/
def resume (c : ℕ) (done : ℤ) (pin : Pin) (s : Kernel) : MboxCopy → Option (Out × Kernel)
  | .send i length data => resumeMboxSend c i length data done pin s
  | .recv i length => resumeMboxRecv c i length done pin s

end MboxCopy

/-! ## Runs of the channel -/

/-- A call in the middle of its message: the bytes it has transferred, and where it goes on. -/
structure Party where
  call : MboxCopy
  done : ℤ
  pin : Pin
  bytes : List Byte

/-- A call that has returned, with the bytes it has transferred and its result. -/
structure Returned where
  call : MboxCopy
  bytes : List Byte
  result : ℤ

/-- The kernel, the calls on the mailbox that are blocked, and those that have returned. -/
structure Channel where
  kernel : Kernel
  party : ℕ → Option Party
  returned : List Returned

namespace Channel

variable (ch : Channel)

/-- The events of a part of a call. -/
def events (s' : Kernel) : List Event := s'.log.drop ch.kernel.log.length

/-- A part of the call `k` of process `p` has ended; it had transferred `bytes` before. -/
def after (p : ℕ) (k : MboxCopy) (bytes : List Byte) (s' : Kernel) : Out → Channel
  | .ret v =>
    ⟨s', Function.update ch.party p none, ch.returned ++ [⟨k, bytes ++ k.moved (ch.events s'), v⟩]⟩
  | .sched (.send done pin) =>
    ⟨s', Function.update ch.party p (some ⟨k, done, pin, bytes ++ k.moved (ch.events s')⟩), ch.returned⟩
  | .sched (.recv done pin) =>
    ⟨s', Function.update ch.party p (some ⟨k, done, pin, bytes ++ k.moved (ch.events s')⟩), ch.returned⟩
  | .sched _ => ⟨s', Function.update ch.party p none, ch.returned⟩
  | .exit => ⟨s', Function.update ch.party p none, ch.returned⟩

end Channel

/-- The ring of mailbox `i` is left alone. -/
structure LeavesRing (i : ℕ) (s s' : Kernel) : Prop where
  buf : (s'.mailboxes i).buf = (s.mailboxes i).buf
  nread : (s'.mailboxes i).nread = (s.mailboxes i).nread
  nwrite : (s'.mailboxes i).nwrite = (s.mailboxes i).nwrite
  log : ∃ es, s'.log = s.log ++ es ∧ sentIn i es = [] ∧ receivedIn i es = []

/-- A step of the channel through mailbox `i`: a process starts a call while the mailbox is open, or goes on with one,
or the kernel does anything else. -/
inductive ChannelStep (i : ℕ) : Channel → Channel → Prop
  | start {ch : Channel} {p c msg : ℕ} {k : MboxCopy} {o : Out} {s' : Kernel} :
      ch.party p = none → k.box = i → (ch.kernel.mailboxes i).userCount ≠ 0 → 0 ≤ k.length →
      k.call c msg ch.kernel = some (o, s') →
      ChannelStep i ch (ch.after p k [] s' o)
  | goOn {ch : Channel} {p c : ℕ} {k : MboxCopy} {done : ℤ} {pin : Pin} {bytes : List Byte} {o : Out}
      {s' : Kernel} : ch.party p = some ⟨k, done, pin, bytes⟩ →
      k.resume c done pin ch.kernel = some (o, s') → ChannelStep i ch (ch.after p k bytes s' o)
  | other {ch : Channel} {s' : Kernel} : LeavesRing i ch.kernel s' →
      ChannelStep i ch { ch with kernel := s' }

/-- A channel before the first byte: the mailbox has been opened, and nobody is in the middle of a call on it. -/
structure ChannelStart (i : ℕ) (ch : Channel) : Prop where
  index : i < mboxNum
  nread : (ch.kernel.mailboxes i).nread = 0
  nwrite : (ch.kernel.mailboxes i).nwrite = 0
  party : ∀ p, ch.party p = none
  returned : ch.returned = []

/-- The call has transferred the whole message and says so. -/
structure Returned.Whole (r : Returned) : Prop where
  result : r.result = r.call.length
  length : r.bytes.length = r.call.length
  bytes : r.call.IsPart 0 r.bytes

/-- What holds of a channel in a run whose log had `n` events when the mailbox was opened. -/
structure ChannelOk (i n : ℕ) (ch : Channel) : Prop where
  fifo : receivedIn i (ch.kernel.log.drop n) <+: sentIn i (ch.kernel.log.drop n)
  ring : (sentIn i (ch.kernel.log.drop n)).length < 2 ^ 31 →
    0 ≤ (ch.kernel.mailboxes i).nwrite - (ch.kernel.mailboxes i).nread ∧
      (ch.kernel.mailboxes i).nwrite - (ch.kernel.mailboxes i).nread ≤ maxMboxLength
  whole : ∀ r ∈ ch.returned, r.Whole

/-! ## The log -/

variable {c i n fuel d : ℕ} {k : MboxCopy} {len size v : ℤ} {data : ℕ → Byte} {pin pin' : Pin} {s s' : Kernel}
  {es es' : List Event} {sent received bs bs' : List Byte} {o : Out} {ch ch' : Channel}

theorem sentIn_append (i : ℕ) (es es' : List Event) : sentIn i (es ++ es') = sentIn i es ++ sentIn i es' := by
  induction es with
  | nil => rfl
  | cons e es ih =>
    rw [List.cons_append]
    cases e <;> simp only [sentIn, ih]
    split_ifs
    · rw [List.append_assoc]
    · rfl

theorem receivedIn_append (i : ℕ) (es es' : List Event) :
    receivedIn i (es ++ es') = receivedIn i es ++ receivedIn i es' := by
  induction es with
  | nil => rfl
  | cons e es ih =>
    rw [List.cons_append]
    cases e <;> simp only [receivedIn, ih]
    split_ifs
    · rw [List.append_assoc]
    · rfl

theorem MboxCopy.moved_append (k : MboxCopy) (es es' : List Event) :
    k.moved (es ++ es') = k.moved es ++ k.moved es' := by
  cases k with
  | send i length data => exact sentIn_append i es es'
  | recv i length => exact receivedIn_append i es es'

/-- `wakeup` transfers nothing. -/
theorem wakeupFrom_silent {h : Head} (fuel : ℕ) (x : Node) (s : Kernel)
    (hs : wakeupFrom h fuel x s = some s') :
    ∃ es, s'.log = s.log ++ es ∧ ∀ i, sentIn i es = [] ∧ receivedIn i es = [] := by
  induction fuel generalizing x s with
  | zero => cases hs
  | succ fuel ih =>
    cases x with
    | inl t =>
      obtain ⟨es, hl, hes⟩ := ih _ (doUnblock t s) hs
      refine ⟨.wake t :: es, ?_, hes⟩
      rw [hl]
      exact List.append_assoc _ _ _
    | inr g =>
      rw [wakeupFrom] at hs
      split_ifs at hs
      cases hs
      exact ⟨[], (List.append_nil _).symm, fun _ => ⟨rfl, rfl⟩⟩

theorem doBlock_silent (x : Task) (h : Head) (s : Kernel) :
    ∃ es, (doBlock x h s).log = s.log ++ es ∧ ∀ i, sentIn i es = [] ∧ receivedIn i es = [] := by
  unfold doBlock
  split_ifs
  · exact ⟨[], (List.append_nil _).symm, fun _ => ⟨rfl, rfl⟩⟩
  · exact ⟨[.block x h], rfl, fun _ => ⟨rfl, rfl⟩⟩

/-! ## One round -/

/-- The lock and the users do not matter. -/
theorem TrafficInv.congr {m m' : Mailbox} (h : TrafficInv ⟨m, sent, received⟩) (hb : m'.buf = m.buf)
    (hr : m'.nread = m.nread) (hw : m'.nwrite = m.nwrite) : TrafficInv ⟨m', sent, received⟩ := by
  obtain ⟨h1, h2⟩ := h
  refine ⟨⟨hw.trans h1.nwrite, hr.trans h1.nread, h1.taken, h1.room, h1.int, ?_⟩, h2⟩
  show Window 64 (fun i x => m'.buf i = x) _ _
  rw [hb]
  exact h1.window

/-- Two parts one after the other. -/
theorem MboxCopy.IsPart.append (h1 : k.IsPart d bs) (h2 : k.IsPart (d + bs.length) bs') :
    k.IsPart d (bs ++ bs') := by
  cases k with
  | send i length data =>
    have h1 : bs = _ := h1
    have h2 : bs' = _ := h2
    show bs ++ bs' = _
    rw [List.length_append, List.range_add, List.map_append, List.map_map, ← h1]
    nth_rewrite 1 [h2]
    congr 1
    apply List.map_congr_left
    intro j _
    rw [Function.comp_apply, Nat.add_assoc]
  | recv i length => trivial

/-- What a round does to the message. -/
def RoundMoves (k : MboxCopy) (d : ℕ) (es : List Event) : CopyRound → Prop
  | .ended => k.moved es = []
  | .blocked => k.moved es = []
  | .exited _ => True
  | .moved size _ _ => (k.moved es).length = size ∧ k.IsPart d (k.moved es)

/-- From `s` to `s'` the events `es` have happened, and the ring of mailbox `i` has kept up with them. -/
structure Carries (i : ℕ) (sent received : List Byte) (s s' : Kernel) (es : List Event) : Prop where
  log : s'.log = s.log ++ es
  ring : TrafficInv ⟨s'.mailboxes i, sent ++ sentIn i es, received ++ receivedIn i es⟩

theorem Carries.trans {s1 : Kernel} (h1 : Carries i sent received s s1 es)
    (h2 : Carries i (sent ++ sentIn i es) (received ++ receivedIn i es) s1 s' es') :
    Carries i sent received s s' (es ++ es') := by
  constructor
  · rw [h2.log, h1.log, List.append_assoc]
  · rw [sentIn_append, receivedIn_append, ← List.append_assoc, ← List.append_assoc]
    exact h2.ring

/-- Nothing is transferred, and the ring stays as it is. -/
theorem carries_silent (h : TrafficInv ⟨s.mailboxes i, sent, received⟩) (hl : s'.log = s.log ++ es)
    (he : sentIn i es = [] ∧ receivedIn i es = []) (hb : (s'.mailboxes i).buf = (s.mailboxes i).buf)
    (hr : (s'.mailboxes i).nread = (s.mailboxes i).nread)
    (hw : (s'.mailboxes i).nwrite = (s.mailboxes i).nwrite) : Carries i sent received s s' es := by
  refine ⟨hl, ?_⟩
  rw [he.1, he.2, List.append_nil, List.append_nil]
  exact h.congr hb hr hw

theorem carries_release (h : TrafficInv ⟨s.mailboxes i, sent, received⟩) :
    Carries i sent received s (releaseMailboxSpin i s) [] := by
  have hbox := releaseMailboxSpin_self i s
  refine carries_silent h (List.append_nil _).symm ⟨rfl, rfl⟩ ?_ ?_ ?_
  · rw [hbox]
  · rw [hbox]
  · rw [hbox]

theorem carries_block (x : Task) (g : Head) (h : TrafficInv ⟨s.mailboxes i, sent, received⟩) :
    ∃ es, Carries i sent received s (releaseMailboxSpin i (doBlock x g s)) es ∧ sentIn i es = [] ∧
      receivedIn i es = [] := by
  obtain ⟨es, hl, hes⟩ := doBlock_silent x g s
  have h1 : Carries i sent received s (doBlock x g s) es :=
    carries_silent h hl (hes i) (by rw [doBlock_mailboxes]) (by rw [doBlock_mailboxes])
      (by rw [doBlock_mailboxes])
  refine ⟨es, ?_, hes i⟩
  have h2 := h1.trans (carries_release h1.ring)
  rwa [List.append_nil] at h2

/-- The end of a round transfers nothing. -/
theorem ChunkEnds.silent {h : Head} {last : Bool} {r : CopyRound} (he : ChunkEnds h pin size last s r s') :
    ∃ es, s'.log = s.log ++ es ∧ ∀ i, sentIn i es = [] ∧ receivedIn i es = [] := by
  rcases he with ⟨-, -, rfl⟩ | ⟨pin', -, -, hw⟩
  · exact ⟨[], (List.append_nil _).symm, fun _ => ⟨rfl, rfl⟩⟩
  · exact wakeupFrom_silent _ _ _ hw

/-- What the round does to the message once the chunk is copied. -/
theorem ChunkEnds.moves {h : Head} {last : Bool} {r : CopyRound} (he : ChunkEnds h pin size last s r s')
    (hlen : (k.moved es).length = size) (hp : k.IsPart d (k.moved es)) : RoundMoves k d es r := by
  rcases he with ⟨rfl, -, -⟩ | ⟨pin', rfl, -, -⟩
  · trivial
  · exact ⟨hlen, hp⟩

theorem sendRound_moves {r : CopyRound} (h : TrafficInv ⟨s.mailboxes i, sent, received⟩)
    (hs : sendRound c i len data d pin s = some (r, s')) :
    ∃ es, Carries i sent received s s' es ∧ RoundMoves (.send i len data) d es r := by
  rcases sendRound_cases hs with ⟨-, rfl, rfl⟩ | ⟨-, -, rfl, rfl⟩ | ⟨size, last, m, mem, h1, h2, hc, hm, he⟩
  · exact ⟨[], carries_release h, rfl⟩
  · obtain ⟨es, h1, h2, -⟩ := carries_block (s.current c) (.send i) h
    exact ⟨es, h1, h2⟩
  · obtain ⟨hpos, hle, -⟩ := chunkSize_spec h2 h1 hc
    rw [Int.toNat_natCast] at hm he
    generalize hbs : (List.range size.toNat).map _ = bs at hm he
    have hlen : bs.length = size.toNat := by
      rw [← hbs, List.length_map, List.length_range]
    have hchunk : ChunkOk ⟨s.mailboxes i, sent, received⟩ (.send bs) := by
      show (bs.length : ℤ) ≤ maxMboxLength - i32 ((s.mailboxes i).nwrite - (s.mailboxes i).nread)
      omega
    rcases h.send hchunk with ⟨-, m1, hm1, ht⟩ | ⟨-, hnone⟩
    · rw [hm] at hm1
      cases hm1
      obtain ⟨es, hl, hes⟩ := he.silent
      have hput : sentIn i (.put i (s.current c) bs :: es) = bs := by
        rw [sentIn, if_pos rfl, (hes i).1, List.append_nil]
      have hnot : receivedIn i (.put i (s.current c) bs :: es) = [] := (hes i).2
      refine ⟨.put i (s.current c) bs :: es, ⟨?_, ?_⟩, ?_⟩
      · rw [hl]
        exact List.append_assoc _ _ _
      · rw [hput, hnot, List.append_nil, he.mailboxes]
        have hbox : ((((s.setMailbox i m).addLog (.put i (s.current c) bs)).setMemory mem).mailboxes i) = m :=
          Function.update_self _ _ _
        rw [hbox]
        exact ht
      · have hmoved : MboxCopy.moved (.put i (s.current c) bs :: es) (.send i len data) = bs := hput
        apply he.moves
        · rw [hmoved, hlen]
          omega
        · rw [hmoved]
          show bs = _
          rw [hlen]
          exact hbs.symm
    · rw [hm] at hnone
      cases hnone

theorem recvRound_moves {r : CopyRound} (h : TrafficInv ⟨s.mailboxes i, sent, received⟩)
    (hs : recvRound c i len d pin s = some (r, s')) :
    ∃ es, Carries i sent received s s' es ∧ RoundMoves (.recv i len) d es r := by
  rcases recvRound_cases hs with
    ⟨-, rfl, rfl⟩ | ⟨-, -, rfl, rfl⟩ | ⟨size, last, bs, m, mem, h1, h2, hc, hm, he⟩
  · exact ⟨[], carries_release h, rfl⟩
  · obtain ⟨es, h1, -, h2⟩ := carries_block (s.current c) (.recv i) h
    exact ⟨es, h1, h2⟩
  · obtain ⟨hpos, hle, -⟩ := chunkSize_spec h2 h1 hc
    have hchunk : ChunkOk ⟨s.mailboxes i, sent, received⟩ (.recv size.toNat) := by
      show (size.toNat : ℤ) ≤ i32 ((s.mailboxes i).nwrite - (s.mailboxes i).nread)
      omega
    obtain ⟨bs1, m1, hm1, hlen, ht⟩ := h.recv hchunk
    rw [hm] at hm1
    cases hm1
    obtain ⟨es, hl, hes⟩ := he.silent
    have hgot : receivedIn i (.got i (s.current c) bs :: es) = bs := by
      rw [receivedIn, if_pos rfl, (hes i).2, List.append_nil]
    have hnot : sentIn i (.got i (s.current c) bs :: es) = [] := (hes i).1
    refine ⟨.got i (s.current c) bs :: es, ⟨?_, ?_⟩, ?_⟩
    · rw [hl]
      exact List.append_assoc _ _ _
    · rw [hgot, hnot, List.append_nil, he.mailboxes]
      have hbox : ((((s.setMailbox i m).addLog (.got i (s.current c) bs)).setMemory mem).mailboxes i) = m :=
        Function.update_self _ _ _
      rw [hbox]
      exact ht
    · have hmoved : MboxCopy.moved (.got i (s.current c) bs :: es) (.recv i len) = bs := hgot
      apply he.moves
      · rw [hmoved, hlen]
        omega
      · trivial

theorem MboxCopy.round_moves {r : CopyRound} (h : TrafficInv ⟨s.mailboxes k.box, sent, received⟩)
    (hs : k.round c d pin s = some (r, s')) :
    ∃ es, Carries k.box sent received s s' es ∧ RoundMoves k d es r := by
  cases k with
  | send i length data => exact sendRound_moves h hs
  | recv i length => exact recvRound_moves h hs

/-! ## One part of a call -/

/-- What a part of a call that had transferred `d` bytes does to the message. -/
def PartMoves (k : MboxCopy) (d : ℕ) (es : List Event) : Out → Prop
  | .ret v => v = k.length ∧ v = d + (k.moved es).length ∧ k.IsPart d (k.moved es)
  | .sched point => ∃ (done : ℕ) (pin : Pin), point = k.point done pin ∧ done = d + (k.moved es).length ∧
      (done : ℤ) ≤ k.length ∧ k.IsPart d (k.moved es)
  | .exit => True

theorem MboxCopy.isPart_nil (k : MboxCopy) (d : ℕ) : k.IsPart d [] := by
  cases k with
  | send i length data => rfl
  | recv i length => trivial

/-- The rounds of the loop, from byte `d` on. -/
theorem copyLoop_moves (hd : (d : ℤ) ≤ k.length) (h : TrafficInv ⟨s.mailboxes k.box, sent, received⟩)
    (hs : copyLoop (k.round c) k.point fuel d pin s = some (o, s')) :
    ∃ es, Carries k.box sent received s s' es ∧ PartMoves k d es o := by
  induction fuel generalizing d pin s sent received with
  | zero => cases hs
  | succ fuel ih =>
    rw [copyLoop] at hs
    obtain ⟨⟨r, s1⟩, hround, hs⟩ := Option.bind_eq_some_iff.mp hs
    obtain ⟨es, hc, hm⟩ := MboxCopy.round_moves h hround
    have hf := MboxCopy.round_fits hround
    cases r with
    | ended =>
      cases hs
      have hm : k.moved es = [] := hm
      refine ⟨es, hc, le_antisymm hd hf, ?_, ?_⟩
      · rw [hm]
        exact (add_zero _).symm
      · rw [hm]
        exact k.isPart_nil d
    | blocked =>
      cases hs
      have hm : k.moved es = [] := hm
      refine ⟨es, hc, d, pin, rfl, ?_, hd, ?_⟩
      · rw [hm]
        rfl
      · rw [hm]
        exact k.isPart_nil d
    | exited size =>
      cases hs
      exact ⟨es, hc, trivial⟩
    | moved size last pin' =>
      obtain ⟨hlen, hp⟩ := hm
      obtain ⟨hlt, ⟨room, hr, hsize⟩, -⟩ := hf
      obtain ⟨-, -, hle, -⟩ := chunkSize_spec hr hlt hsize
      have hd1 : (d : ℤ) + size = (d + (k.moved es).length : ℕ) := by
        rw [← hlen]
        rfl
      simp only [hd1] at hs
      rw [hd1] at hle
      obtain ⟨es1, hc1, hm1⟩ := ih hle hc.ring hs
      refine ⟨es ++ es1, hc.trans hc1, ?_⟩
      have happ : (d : ℤ) + (k.moved (es ++ es1)).length =
          (d + (k.moved es).length : ℕ) + (k.moved es1).length := by
        rw [k.moved_append, List.length_append]
        push_cast
        ring
      cases o with
      | ret v =>
        obtain ⟨h1, h2, h3⟩ := hm1
        refine ⟨h1, ?_, ?_⟩
        · rw [happ]
          exact h2
        · rw [k.moved_append]
          exact hp.append h3
      | sched point =>
        obtain ⟨done, pin2, h1, h2, h3, h4⟩ := hm1
        refine ⟨done, pin2, h1, ?_, h3, ?_⟩
        · rw [h2, k.moved_append, List.length_append, Nat.add_assoc]
        · rw [k.moved_append]
          exact hp.append h4
      | exit => trivial

theorem carries_acquire {s1 : Kernel} (h : TrafficInv ⟨s.mailboxes i, sent, received⟩)
    (ha : acquireMailboxSpin i s = some s1) : Carries i sent received s s1 [] := by
  unfold acquireMailboxSpin at ha
  split_ifs at ha
  cases ha
  have hbox : (s.setMailbox i { s.mailboxes i with lock := .locked }).mailboxes i =
      { s.mailboxes i with lock := .locked } := Function.update_self _ _ _
  refine carries_silent h (List.append_nil _).symm ⟨rfl, rfl⟩ ?_ ?_ ?_
  · rw [hbox]
  · rw [hbox]
  · rw [hbox]

theorem MboxCopy.resume_eq (k : MboxCopy) (done : ℤ) : k.resume c done pin s =
    (acquireMailboxSpin k.box s).bind fun s1 => k.loop c done pin s1 := by
  cases k with
  | send i length data =>
    show resumeMboxSend c i length data done pin s = _
    unfold resumeMboxSend
    rw [Int.toNat_natCast]
    rfl
  | recv i length =>
    show resumeMboxRecv c i length done pin s = _
    unfold resumeMboxRecv
    rw [Int.toNat_natCast]
    rfl

/-- A call that goes on. -/
theorem MboxCopy.resume_moves (hd : (d : ℤ) ≤ k.length) (h : TrafficInv ⟨s.mailboxes k.box, sent, received⟩)
    (hs : k.resume c d pin s = some (o, s')) :
    ∃ es, Carries k.box sent received s s' es ∧ PartMoves k d es o := by
  rw [k.resume_eq] at hs
  obtain ⟨s1, ha, hs⟩ := Option.bind_eq_some_iff.mp hs
  rw [MboxCopy.loop_eq] at hs
  have h1 := carries_acquire h ha
  obtain ⟨es, h2, hm⟩ := copyLoop_moves hd h1.ring hs
  exact ⟨es, h1.trans h2, hm⟩

/-- A call that starts. -/
theorem MboxCopy.call_moves {msg : ℕ} (hd : 0 ≤ k.length)
    (h : TrafficInv ⟨s.mailboxes k.box, sent, received⟩) (hi : k.box < mboxNum)
    (ho : (s.mailboxes k.box).userCount ≠ 0) (hs : k.call c msg s = some (o, s')) :
    ∃ es, Carries k.box sent received s s' es ∧ PartMoves k 0 es o := by
  rw [MboxCopy.call_eq hi ho] at hs
  obtain ⟨⟨pin, s1⟩, hp, hs⟩ := Option.bind_eq_some_iff.mp hs
  obtain ⟨s2, ha, hs⟩ := Option.bind_eq_some_iff.mp hs
  rw [MboxCopy.loop_eq] at hs
  obtain ⟨m, -, e⟩ := Option.map_eq_some_iff.mp hp
  cases e
  have h1 : Carries k.box sent received s (s.setMemory m) [] :=
    carries_silent h (List.append_nil _).symm ⟨rfl, rfl⟩ rfl rfl rfl
  have h2 := carries_acquire h1.ring ha
  obtain ⟨es, h3, hm⟩ := copyLoop_moves (d := 0) hd h2.ring hs
  exact ⟨es, h1.trans (h2.trans h3), hm⟩

/-! ## Runs -/

/-- A call in the middle of its message is right about what it has transferred. -/
structure PartyOk (i : ℕ) (x : Party) : Prop where
  box : x.call.box = i
  done : x.done = x.bytes.length
  length : x.done ≤ x.call.length
  bytes : x.call.IsPart 0 x.bytes

/-- The invariant of the runs of a channel whose log had `n` events when the mailbox was opened. -/
structure ChannelInv (i n : ℕ) (ch : Channel) : Prop where
  log : n ≤ ch.kernel.log.length
  ring : TrafficInv ⟨ch.kernel.mailboxes i, sentIn i (ch.kernel.log.drop n),
    receivedIn i (ch.kernel.log.drop n)⟩
  party : ∀ p x, ch.party p = some x → PartyOk i x
  whole : ∀ r ∈ ch.returned, r.Whole

theorem ChannelStart.inv (h : ChannelStart i ch) : ChannelInv i ch.kernel.log.length ch := by
  constructor
  · exact le_refl _
  · rw [List.drop_length]
    exact Fresh.inv ⟨h.nwrite, h.nread, rfl, rfl⟩
  · intro p x hx
    rw [h.party] at hx
    cases hx
  · intro r hr
    rw [h.returned] at hr
    cases hr

/-- The events of a step come after those of the run. -/
theorem Carries.drop (h : Carries i (sentIn i (s.log.drop n)) (receivedIn i (s.log.drop n)) s s' es)
    (hn : n ≤ s.log.length) : n ≤ s'.log.length ∧
      TrafficInv ⟨s'.mailboxes i, sentIn i (s'.log.drop n), receivedIn i (s'.log.drop n)⟩ := by
  rw [h.log, List.drop_append_of_le_length hn, sentIn_append, receivedIn_append, List.length_append]
  exact ⟨hn.trans (Nat.le_add_right _ _), h.ring⟩

theorem ChannelInv.after {p : ℕ} (h : ChannelInv i n ch) (hk : k.box = i) (hbs : k.IsPart 0 bs)
    (hc : Carries i (sentIn i (ch.kernel.log.drop n)) (receivedIn i (ch.kernel.log.drop n)) ch.kernel s' es)
    (hm : PartMoves k bs.length es o) : ChannelInv i n (ch.after p k bs s' o) := by
  obtain ⟨hn, hring⟩ := hc.drop h.log
  have hes : ch.events s' = es := by
    show s'.log.drop ch.kernel.log.length = es
    rw [hc.log, List.drop_left]
  have hparty : ∀ x, (∀ y, x = some y → PartyOk i y) → ∀ p' y,
      Function.update ch.party p x p' = some y → PartyOk i y := by
    intro x hx p' y hy
    by_cases e : p' = p
    · rw [e, Function.update_self] at hy
      exact hx y hy
    · rw [Function.update_of_ne e] at hy
      exact h.party p' y hy
  cases o with
  | ret v =>
    obtain ⟨h1, h2, h3⟩ := hm
    refine ⟨hn, hring, hparty none nofun, fun r hr => ?_⟩
    rcases List.mem_append.mp hr with hr | hr
    · exact h.whole r hr
    · obtain rfl := List.mem_singleton.mp hr
      rw [hes]
      rw [← Nat.zero_add bs.length] at h3
      refine ⟨h1, ?_, hbs.append h3⟩
      show ((bs ++ k.moved es).length : ℤ) = k.length
      rw [List.length_append, ← h1, h2]
      push_cast
      rfl
  | sched point =>
    obtain ⟨done, pin, rfl, h2, h3, h4⟩ := hm
    rw [← Nat.zero_add bs.length] at h4
    have hx : PartyOk i ⟨k, done, pin, bs ++ k.moved (ch.events s')⟩ := by
      rw [hes]
      refine ⟨hk, ?_, h3, hbs.append h4⟩
      show (done : ℤ) = ((bs ++ k.moved es).length : ℕ)
      rw [List.length_append, h2]
    have hx' : ∀ y, some (⟨k, done, pin, bs ++ k.moved (ch.events s')⟩ : Party) = some y → PartyOk i y := by
      intro y hy
      cases hy
      exact hx
    cases k with
    | send j length data => exact ⟨hn, hring, hparty _ hx', h.whole⟩
    | recv j length => exact ⟨hn, hring, hparty _ hx', h.whole⟩
  | exit => exact ⟨hn, hring, hparty none nofun, h.whole⟩

theorem ChannelStep.inv (hi : i < mboxNum) (hs : ChannelStep i ch ch') (h : ChannelInv i n ch) :
    ChannelInv i n ch' := by
  cases hs with
  | start hp hk ho hlen hs =>
    subst hk
    obtain ⟨es, hc, hm⟩ := MboxCopy.call_moves hlen h.ring hi ho hs
    exact h.after rfl (MboxCopy.isPart_nil _ 0) hc hm
  | goOn hp hs =>
    obtain ⟨hbox, hdone, hle, hbytes⟩ := h.party _ _ hp
    simp only at hbox hdone hle hbytes
    subst hbox hdone
    obtain ⟨es, hc, hm⟩ := MboxCopy.resume_moves hle h.ring hs
    exact h.after rfl hbytes hc hm
  | other hl =>
    obtain ⟨hb, hr, hw, es, hlog, hes⟩ := hl
    obtain ⟨hn, hring⟩ := (carries_silent h.ring hlog hes hb hr hw).drop h.log
    exact ⟨hn, hring, h.party, h.whole⟩

theorem ChannelInv.ok (h : ChannelInv i n ch) : ChannelOk i n ch := by
  obtain ⟨hinv, hr⟩ := h.ring
  refine ⟨List.prefix_iff_eq_take.mpr hr, fun hlt => ?_, h.whole⟩
  have htaken := hinv.taken
  have hroom := hinv.room
  simp only at htaken hroom
  rw [hinv.nwrite, hinv.nread, i32_eq (by omega) (by exact_mod_cast hlt), i32_eq (by omega) (by
    simp only
    omega)]
  unfold maxMboxLength
  constructor
  · simp only
    omega
  · simp only
    omega

end RiscvKernel.Sched
