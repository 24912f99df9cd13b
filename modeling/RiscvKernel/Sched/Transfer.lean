import RiscvKernel.Sched.Give

/-!
# The pages of a message

`do_mbox_send` and `do_mbox_recv` keep one page of the message pinned and go to the next one when the
number of bytes they have transferred reaches a multiple of the page size. This is the end of the page
only for a message that begins with a page, and the page after a message that ends with a page is pinned
as well (`touchesOnly_iff`).
-/

namespace RiscvKernel.Sched

open Lib Mm

/-! ## Rounds -/

/-- How a round of a copy loop ends: the loop is over, the ring is full or empty, the process ends when it
unpins its page, or the loop goes on, with a new page if the flag is set. -/
inductive CopyRound
  | ended
  | blocked
  | exited (chunk : ℤ)
  | moved (chunk : ℤ) (unpinLast : Bool) (pin : Pin)

/-- One round of the loop of `do_mbox_send`. -/
def sendRound (c i : ℕ) (length : ℤ) (data : ℕ → Byte) (sent : ℤ) (pin : Pin) (s : Kernel) :
    Option (CopyRound × Kernel) :=
  if sent < length then
    let used := i32 ((s.mailboxes i).nwrite - (s.mailboxes i).nread)
    let remainSpace := maxMboxLength - used
    if 0 < remainSpace then do
      let (chunk, unpinLast) := chunkSize remainSpace length sent
      let bytes := (List.range chunk.toNat).map fun k => data (sent.toNat + k)
      let m ← putBytes bytes (s.mailboxes i)
      let s := (s.setMailbox i m).addLog (.put i (s.current c) bytes)
      let (ok, pin, s) ← pinNextIf c unpinLast pin s
      if !ok then return (.exited chunk, s)
      else
        let s ← wakeup (.recv i) s
        return (.moved chunk unpinLast pin, s)
    else some (.blocked, releaseMailboxSpin i (doBlock (s.current c) (.send i) s))
  else some (.ended, releaseMailboxSpin i s)

/-- One round of the loop of `do_mbox_recv`. -/
def recvRound (c i : ℕ) (length : ℤ) (read : ℤ) (pin : Pin) (s : Kernel) : Option (CopyRound × Kernel) :=
  if read < length then
    let availableData := i32 ((s.mailboxes i).nwrite - (s.mailboxes i).nread)
    if 0 < availableData then do
      let (chunk, unpinLast) := chunkSize availableData length read
      let (bytes, m) ← getBytes chunk.toNat (s.mailboxes i)
      let s := (s.setMailbox i m).addLog (.got i (s.current c) bytes)
      let (ok, pin, s) ← pinNextIf c unpinLast pin s
      if !ok then return (.exited chunk, s)
      else
        let s ← wakeup (.send i) s
        return (.moved chunk unpinLast pin, s)
    else some (.blocked, releaseMailboxSpin i (doBlock (s.current c) (.recv i) s))
  else some (.ended, releaseMailboxSpin i s)

/-- The loop that makes the rounds. -/
def copyLoop (round : ℤ → Pin → Kernel → Option (CopyRound × Kernel)) (point : ℤ → Pin → Point) :
    ℕ → ℤ → Pin → Kernel → Option (Out × Kernel)
  | 0, _, _, _ => none
  | fuel + 1, done, pin, s =>
    (round done pin s).bind fun
      | (.ended, s') => some (.ret done, s')
      | (.blocked, s') => some (.sched (point done pin), s')
      | (.exited _, s') => some (.exit, s')
      | (.moved chunk _ pin', s') => copyLoop round point fuel (done + chunk) pin' s'

variable {c i fuel msg : ℕ} {len done room size : ℤ} {data : ℕ → Byte} {pin pin' : Pin} {s s' : Kernel}
  {last : Bool}

theorem mboxSendLoop_eq : mboxSendLoop c i len data fuel done pin s =
    copyLoop (sendRound c i len data) .send fuel done pin s := by
  induction fuel generalizing done pin s with
  | zero => rfl
  | succ fuel ih =>
    rw [mboxSendLoop, copyLoop, sendRound]
    by_cases h1 : done < len
    · rw [if_pos h1, if_pos h1]
      by_cases h2 : 0 < (maxMboxLength : ℤ) - i32 ((s.mailboxes i).nwrite - (s.mailboxes i).nread)
      · simp only [if_pos h2]
        generalize chunkSize _ _ _ = x
        obtain ⟨chunk, last⟩ := x
        simp only
        cases putBytes ((List.range chunk.toNat).map fun k => data (done.toNat + k)) (s.mailboxes i) with
        | none => rfl
        | some m =>
          simp only [Option.bind_eq_bind, Option.bind_some]
          generalize (s.setMailbox i m).addLog _ = s1
          cases pinNextIf c last pin s1 with
          | none => rfl
          | some x =>
            obtain ⟨ok, pin1, s2⟩ := x
            cases ok with
            | false => rfl
            | true =>
              simp only [Bool.not_true, Bool.false_eq_true, if_false, Option.bind_some]
              cases wakeup (.recv i) s2 with
              | none => rfl
              | some s3 => exact ih
      · simp only [if_neg h2]
        rfl
    · rw [if_neg h1, if_neg h1]
      rfl

theorem mboxRecvLoop_eq : mboxRecvLoop c i len fuel done pin s =
    copyLoop (recvRound c i len) .recv fuel done pin s := by
  induction fuel generalizing done pin s with
  | zero => rfl
  | succ fuel ih =>
    rw [mboxRecvLoop, copyLoop, recvRound]
    by_cases h1 : done < len
    · rw [if_pos h1, if_pos h1]
      by_cases h2 : 0 < i32 ((s.mailboxes i).nwrite - (s.mailboxes i).nread)
      · simp only [if_pos h2]
        generalize chunkSize _ _ _ = x
        obtain ⟨chunk, last⟩ := x
        simp only
        cases getBytes chunk.toNat (s.mailboxes i) with
        | none => rfl
        | some x =>
          obtain ⟨bytes, m⟩ := x
          simp only [Option.bind_eq_bind, Option.bind_some]
          generalize (s.setMailbox i m).addLog _ = s1
          cases pinNextIf c last pin s1 with
          | none => rfl
          | some x =>
            obtain ⟨ok, pin1, s2⟩ := x
            cases ok with
            | false => rfl
            | true =>
              simp only [Bool.not_true, Bool.false_eq_true, if_false, Option.bind_some]
              cases wakeup (.send i) s2 with
              | none => rfl
              | some s3 => exact ih
      · simp only [if_neg h2]
        rfl
    · rw [if_neg h1, if_neg h1]
      rfl

/-! ## Calls -/

/-- A call of `do_mbox_send` or `do_mbox_recv`. -/
inductive MboxCopy
  | send (i : ℕ) (length : ℤ) (data : ℕ → Byte)
  | recv (i : ℕ) (length : ℤ)

namespace MboxCopy

def box : MboxCopy → ℕ
  | .send i _ _ => i
  | .recv i _ => i

def length : MboxCopy → ℤ
  | .send _ length _ => length
  | .recv _ length => length

/-- Where the call goes on after `do_scheduler`. -/
def point : MboxCopy → ℤ → Pin → Point
  | .send _ _ _ => .send
  | .recv _ _ => .recv

def round (c : ℕ) : MboxCopy → ℤ → Pin → Kernel → Option (CopyRound × Kernel)
  | .send i length data => sendRound c i length data
  | .recv i length => recvRound c i length

/-- The loop of the call, with the spin lock held. -/
def loop (c : ℕ) (done : ℤ) (pin : Pin) (s : Kernel) : MboxCopy → Option (Out × Kernel)
  | .send i length data => mboxSendLoop c i length data (length.toNat + 1) done pin s
  | .recv i length => mboxRecvLoop c i length (length.toNat + 1) done pin s

/-- The call up to its return or to `do_scheduler`. -/
def call (c msg : ℕ) (s : Kernel) : MboxCopy → Option (Out × Kernel)
  | .send i length data => doMboxSend c i msg length data s
  | .recv i length => doMboxRecv c i msg length s

theorem mboxIdx_ok (hi : i < mboxNum) : ¬ ((i : ℤ) < 0 ∨ (mboxNum : ℤ) ≤ i) := by omega

/-- On an open mailbox the first page is pinned, then the lock is taken. -/
theorem call_eq {k : MboxCopy} (hi : k.box < mboxNum) (ho : (s.mailboxes k.box).userCount ≠ 0) :
    k.call c msg s = (pinFirst c msg s).bind fun x =>
      (acquireMailboxSpin k.box x.2).bind fun s2 => k.loop c 0 x.1 s2 := by
  cases k with
  | send i length data =>
    have ho : (s.mailboxes i).userCount ≠ 0 := ho
    show doMboxSend c i msg length data s = _
    unfold doMboxSend
    rw [if_neg (mboxIdx_ok (i := i) hi), Int.toNat_natCast, if_neg ho]
    rfl
  | recv i length =>
    have ho : (s.mailboxes i).userCount ≠ 0 := ho
    show doMboxRecv c i msg length s = _
    unfold doMboxRecv
    rw [if_neg (mboxIdx_ok (i := i) hi), Int.toNat_natCast, if_neg ho]
    rfl

theorem loop_eq (k : MboxCopy) : k.loop c done pin s =
    copyLoop (k.round c) k.point (k.length.toNat + 1) done pin s := by
  cases k with
  | send i length data => exact mboxSendLoop_eq
  | recv i length => exact mboxRecvLoop_eq

end MboxCopy

/-- Bytes number `done` to `done + chunk` of the message are copied while the page at `uva` is pinned, and
then the page at `next` is pinned, if there is one. -/
structure Chunk where
  uva : ℕ
  done : ℤ
  chunk : ℤ
  next : Option ℕ

/-- The chunks that the rounds copy. -/
def chunksOf (round : ℤ → Pin → Kernel → Option (CopyRound × Kernel)) : ℕ → ℤ → Pin → Kernel → List Chunk
  | 0, _, _, _ => []
  | fuel + 1, done, pin, s =>
    match round done pin s with
    | none => []
    | some (.ended, _) => []
    | some (.blocked, _) => []
    | some (.exited chunk, _) => [⟨pin.uva, done, chunk, none⟩]
    | some (.moved chunk unpinLast pin', s') =>
      ⟨pin.uva, done, chunk, if unpinLast then some pin'.uva else none⟩ ::
        chunksOf round fuel (done + chunk) pin' s'

/-- The chunks that the loop of a call copies. -/
def MboxCopy.chunks (c : ℕ) (done : ℤ) (pin : Pin) (s : Kernel) (k : MboxCopy) : List Chunk :=
  chunksOf (k.round c) (k.length.toNat + 1) done pin s

/-- A call with the lock held, from the byte number and the page on, with the chunks it has copied and its
result. It may not have returned: it is still blocked, or it has ended the process, or it is stuck.
While it is blocked the other processes may do anything. -/
inductive CopyRun (k : MboxCopy) : ℤ → Pin → Kernel → List Chunk → Option ℤ → Prop
  | ret {c : ℕ} {done v : ℤ} {pin : Pin} {s s' : Kernel} : k.loop c done pin s = some (.ret v, s') →
      CopyRun k done pin s (k.chunks c done pin s) (some v)
  | stop {c : ℕ} {done : ℤ} {pin : Pin} {s : Kernel} : CopyRun k done pin s (k.chunks c done pin s) none
  | block {c : ℕ} {done done' : ℤ} {pin pin' : Pin} {s s' s'' : Kernel} {tr : List Chunk} {v : Option ℤ} :
      k.loop c done pin s = some (.sched (k.point done' pin'), s') → CopyRun k done' pin' s'' tr v →
      CopyRun k done pin s (k.chunks c done pin s ++ tr) v

/-- A whole call with a message at the address, on an open mailbox: the first page is pinned and the lock is taken. -/
inductive MboxRun (k : MboxCopy) (msg : ℕ) : ℕ → List Chunk → Option ℤ → Prop
  | mk {c : ℕ} {s s1 s2 : Kernel} {pin : Pin} {tr : List Chunk} {v : Option ℤ} :
      k.box < mboxNum → (s.mailboxes k.box).userCount ≠ 0 →
      pinFirst c msg s = some (pin, s1) → acquireMailboxSpin k.box s1 = some s2 →
      CopyRun k 0 pin s2 tr v → MboxRun k msg pin.uva tr v

/-! ## What may be touched -/

/-- The page has a byte of the message. -/
def InMessage (msg : ℕ) (length : ℤ) (uva : ℕ) : Prop :=
  ∃ j : ℕ, (j : ℤ) < length ∧ uva ≤ msg + j ∧ msg + j < uva + pageSize

/-- The bytes are in the page that is pinned, and the next page is one of the message. -/
structure ChunkPinned (msg : ℕ) (length : ℤ) (p : Chunk) : Prop where
  pinned : ∀ j : ℕ, (j : ℤ) < p.chunk → p.uva ≤ msg + p.done.toNat + j ∧
    msg + p.done.toNat + j < p.uva + pageSize
  next : ∀ u, p.next = some u → InMessage msg length u

/-- The call copies bytes of pinned pages only, and pins pages of the message only. -/
structure TouchesOnly (msg : ℕ) (length : ℤ) (first : ℕ) (tr : List Chunk) : Prop where
  first : InMessage msg length first
  chunks : ∀ p ∈ tr, ChunkPinned msg length p

/-- The message has bytes, and it begins with a page and does not end with one, or is inside of a page. -/
def MessageFits (msg : ℕ) (length : ℤ) : Prop :=
  0 < length ∧ ((msg % pageSize = 0 ∧ length % pageSize ≠ 0) ∨
    (msg % pageSize ≠ 0 ∧ (msg % pageSize : ℕ) + length ≤ pageSize))

instance (msg : ℕ) (length : ℤ) : Decidable (MessageFits msg length) :=
  inferInstanceAs (Decidable (_ ∧ _))

/-! ## One round -/

/-- A size has a byte and does not go over the next multiple of the page size; the flag says that it reaches
it. -/
theorem chunkSize_spec {d : ℕ} (hr : 0 < room) (hd : (d : ℤ) < len)
    (hc : chunkSize room len d = (size, last)) :
    0 < size ∧ size ≤ room ∧ d + size ≤ len ∧
      (last = true → d + size = (d / 4096 + 1 : ℕ) * 4096) ∧
      (last = false → d + size < (d / 4096 + 1 : ℕ) * 4096) := by
  have hround : (rounddown ((d : ℤ) + pageSize).toNat pageSize : ℤ) = (d / 4096 + 1 : ℕ) * 4096 := by
    have h1 : ((d : ℤ) + pageSize).toNat = d + 4096 := rfl
    rw [h1]
    unfold rounddown pageSize
    rw [Nat.add_div_right _ (by norm_num)]
    push_cast
    rfl
  unfold chunkSize at hc
  simp only [hround] at hc
  -- what the ring and the message allow
  have hmin : 0 < (if room < len - d then room else len - d) ∧
      (if room < len - d then room else len - d) ≤ room ∧
      (if room < len - d then room else len - d) ≤ len - d := by
    split_ifs <;> omega
  generalize (if room < len - d then room else len - d) = m at hc hmin
  obtain ⟨h0, h1, h2⟩ := hmin
  split_ifs at hc with h
  · cases hc
    refine ⟨by omega, by omega, by omega, fun _ => by omega, nofun⟩
  · cases hc
    refine ⟨h0, h1, by omega, nofun, fun _ => by omega⟩

theorem pinNext_spec {ok : Bool} (h : pinNext c pin s = some (ok, pin', s')) :
    ok = true → pin'.uva = pin.uva + pageSize := by
  intro hok
  subst hok
  unfold pinNext at h
  simp only [Option.bind_eq_bind, Option.bind_eq_some_iff] at h
  obtain ⟨⟨ok1, m1⟩, -, h⟩ := h
  cases ok1 with
  | false => cases h
  | true =>
    simp only [Bool.not_true, Bool.false_eq_true, if_false, Option.bind_eq_some_iff] at h
    obtain ⟨m2, -, h⟩ := h
    cases h
    rfl

/-- The process ends only where it unpins a page; the page goes on to the next one or stays. -/
theorem pinNextIf_spec {ok : Bool} (h : pinNextIf c last pin s = some (ok, pin', s')) :
    (ok = false → last = true) ∧
      (ok = true → pin'.uva = if last then pin.uva + pageSize else pin.uva) := by
  unfold pinNextIf at h
  cases last with
  | false =>
    cases h
    exact ⟨nofun, fun _ => rfl⟩
  | true => exact ⟨fun _ => rfl, pinNext_spec h⟩

theorem pinFirst_uva (h : pinFirst c msg s = some (pin, s')) : pin.uva = rounddown msg pageSize := by
  obtain ⟨m, -, h⟩ := Option.map_eq_some_iff.mp h
  cases h
  rfl

/-- A round that has copied a chunk ends the process or wakes those that wait. -/
def ChunkEnds (h : Head) (pin : Pin) (size : ℤ) (last : Bool) (s : Kernel) (o : CopyRound) (s' : Kernel) : Prop :=
  (o = .exited size ∧ last = true ∧ s' = s) ∨
    ∃ pin', o = .moved size last pin' ∧ (pin'.uva = if last then pin.uva + pageSize else pin.uva) ∧
      wakeup h s = some s'

variable {o : CopyRound}

/-- What a round of `do_mbox_send` can do. -/
theorem sendRound_cases (h : sendRound c i len data done pin s = some (o, s')) :
    (len ≤ done ∧ o = .ended ∧ s' = releaseMailboxSpin i s) ∨
    (done < len ∧ maxMboxLength - i32 ((s.mailboxes i).nwrite - (s.mailboxes i).nread) ≤ 0 ∧
      o = .blocked ∧ s' = releaseMailboxSpin i (doBlock (s.current c) (.send i) s)) ∨
    ∃ size last m mem, done < len ∧ 0 < maxMboxLength - i32 ((s.mailboxes i).nwrite - (s.mailboxes i).nread) ∧
      chunkSize (maxMboxLength - i32 ((s.mailboxes i).nwrite - (s.mailboxes i).nread)) len done = (size, last) ∧
      putBytes ((List.range size.toNat).map fun k => data (done.toNat + k)) (s.mailboxes i) = some m ∧
      ChunkEnds (.recv i) pin size last (((s.setMailbox i m).addLog (.put i (s.current c)
        ((List.range size.toNat).map fun k => data (done.toNat + k)))).setMemory mem) o s' := by
  unfold sendRound at h
  by_cases h1 : done < len
  · rw [if_pos h1] at h
    by_cases h2 : 0 < (maxMboxLength : ℤ) - i32 ((s.mailboxes i).nwrite - (s.mailboxes i).nread)
    · simp only [if_pos h2, Option.bind_eq_bind, Option.bind_eq_some_iff] at h
      obtain ⟨m, hm, ⟨ok, pin1, s1⟩, hpin, h⟩ := h
      obtain ⟨hf, ht⟩ := pinNextIf_spec hpin
      obtain ⟨mem, rfl⟩ := pinNextIf_eq hpin
      refine Or.inr (Or.inr ⟨_, _, m, mem, h1, h2, rfl, hm, ?_⟩)
      cases ok with
      | false =>
        cases h
        exact Or.inl ⟨rfl, hf rfl, rfl⟩
      | true =>
        simp only [Bool.not_true, Bool.false_eq_true, if_false, Option.bind_eq_some_iff] at h
        obtain ⟨s2, hw, h⟩ := h
        cases h
        exact Or.inr ⟨pin1, rfl, ht rfl, hw⟩
    · simp only [if_neg h2] at h
      cases h
      exact Or.inr (Or.inl ⟨h1, not_lt.mp h2, rfl, rfl⟩)
  · rw [if_neg h1] at h
    cases h
    exact Or.inl ⟨not_lt.mp h1, rfl, rfl⟩

/-- What a round of `do_mbox_recv` can do. -/
theorem recvRound_cases (h : recvRound c i len done pin s = some (o, s')) :
    (len ≤ done ∧ o = .ended ∧ s' = releaseMailboxSpin i s) ∨
    (done < len ∧ i32 ((s.mailboxes i).nwrite - (s.mailboxes i).nread) ≤ 0 ∧
      o = .blocked ∧ s' = releaseMailboxSpin i (doBlock (s.current c) (.recv i) s)) ∨
    ∃ size last bs m mem, done < len ∧ 0 < i32 ((s.mailboxes i).nwrite - (s.mailboxes i).nread) ∧
      chunkSize (i32 ((s.mailboxes i).nwrite - (s.mailboxes i).nread)) len done = (size, last) ∧
      getBytes size.toNat (s.mailboxes i) = some (bs, m) ∧
      ChunkEnds (.send i) pin size last
        (((s.setMailbox i m).addLog (.got i (s.current c) bs)).setMemory mem) o s' := by
  unfold recvRound at h
  by_cases h1 : done < len
  · rw [if_pos h1] at h
    by_cases h2 : 0 < i32 ((s.mailboxes i).nwrite - (s.mailboxes i).nread)
    · simp only [if_pos h2, Option.bind_eq_bind, Option.bind_eq_some_iff] at h
      obtain ⟨⟨bs, m⟩, hm, ⟨ok, pin1, s1⟩, hpin, h⟩ := h
      obtain ⟨hf, ht⟩ := pinNextIf_spec hpin
      obtain ⟨mem, rfl⟩ := pinNextIf_eq hpin
      refine Or.inr (Or.inr ⟨_, _, bs, m, mem, h1, h2, rfl, hm, ?_⟩)
      cases ok with
      | false =>
        cases h
        exact Or.inl ⟨rfl, hf rfl, rfl⟩
      | true =>
        simp only [Bool.not_true, Bool.false_eq_true, if_false, Option.bind_eq_some_iff] at h
        obtain ⟨s2, hw, h⟩ := h
        cases h
        exact Or.inr ⟨pin1, rfl, ht rfl, hw⟩
    · simp only [if_neg h2] at h
      cases h
      exact Or.inr (Or.inl ⟨h1, not_lt.mp h2, rfl, rfl⟩)
  · rw [if_neg h1] at h
    cases h
    exact Or.inl ⟨not_lt.mp h1, rfl, rfl⟩

/-- What a round does about the message. -/
def RoundFits (len done : ℤ) (pin : Pin) : CopyRound → Prop
  | .ended => len ≤ done
  | .blocked => True
  | .exited size => done < len ∧ ∃ room, 0 < room ∧ chunkSize room len done = (size, true)
  | .moved size last pin' => done < len ∧ (∃ room, 0 < room ∧ chunkSize room len done = (size, last)) ∧
      pin'.uva = if last then pin.uva + pageSize else pin.uva

theorem ChunkEnds.fits {h : Head} (he : ChunkEnds h pin size last s o s') (hd : done < len) (hr : 0 < room)
    (hc : chunkSize room len done = (size, last)) : RoundFits len done pin o := by
  rcases he with ⟨rfl, rfl, -⟩ | ⟨pin', rfl, hu, -⟩
  · exact ⟨hd, room, hr, hc⟩
  · exact ⟨hd, ⟨room, hr, hc⟩, hu⟩

theorem sendRound_fits (h : sendRound c i len data done pin s = some (o, s')) : RoundFits len done pin o := by
  rcases sendRound_cases h with ⟨h1, rfl, -⟩ | ⟨-, -, rfl, -⟩ | ⟨_, _, _, _, h1, h2, h3, -, h4⟩
  · exact h1
  · trivial
  · exact h4.fits h1 h2 h3

theorem recvRound_fits (h : recvRound c i len done pin s = some (o, s')) : RoundFits len done pin o := by
  rcases recvRound_cases h with ⟨h1, rfl, -⟩ | ⟨-, -, rfl, -⟩ | ⟨_, _, _, _, _, h1, h2, h3, -, h4⟩
  · exact h1
  · trivial
  · exact h4.fits h1 h2 h3

theorem MboxCopy.round_fits {k : MboxCopy} (h : k.round c done pin s = some (o, s')) :
    RoundFits k.length done pin o := by
  cases k with
  | send i length data => exact sendRound_fits h
  | recv i length => exact recvRound_fits h

/-! ## Runs -/

/-- The chunk is a part of the message in one stretch of bytes up to a multiple of the page size, and the
page is the one of this stretch, counted from the first page. -/
structure ChunkFits (first : ℕ) (len : ℤ) (p : Chunk) (d : ℕ) : Prop where
  done : p.done = d
  uva : p.uva = first + d / 4096 * 4096
  pos : 0 < p.chunk
  len : d + p.chunk ≤ len
  stretch : d + p.chunk ≤ (d / 4096 + 1 : ℕ) * 4096
  next : ∀ u, p.next = some u → u = p.uva + 4096 ∧ d + p.chunk = (d / 4096 + 1 : ℕ) * 4096

/-- Byte `j` is in the chunk; if it is the last one of its stretch, the page after it is pinned. -/
structure CopiedIn (first : ℕ) (p : Chunk) (j : ℕ) : Prop where
  lower : p.done ≤ j
  upper : j < p.done + p.chunk
  uva : p.uva = first + j / 4096 * 4096
  next : (j + 1) % 4096 = 0 → p.next = some (p.uva + 4096)

/-- The bytes from `d` to `e` are copied. -/
def Covers (first d : ℕ) (e : ℤ) (tr : List Chunk) : Prop :=
  ∀ j : ℕ, d ≤ j → (j : ℤ) < e → ∃ p ∈ tr, CopiedIn first p j

variable {first d : ℕ} {tr tr' : List Chunk} {v : Option ℤ} {k : MboxCopy} {e : ℤ}

theorem Covers.append (h1 : Covers first d e tr) {d' : ℕ} (h : (d' : ℤ) ≤ e) {e' : ℤ}
    (h2 : Covers first d' e' tr') : Covers first d e' (tr ++ tr') := by
  intro j hj hlt
  by_cases hje : (j : ℤ) < e
  · obtain ⟨p, hp, hc⟩ := h1 j hj hje
    exact ⟨p, List.mem_append_left _ hp, hc⟩
  · obtain ⟨p, hp, hc⟩ := h2 j (by omega) hlt
    exact ⟨p, List.mem_append_right _ hp, hc⟩

/-- There is nothing to copy. -/
theorem covers_nil (h : e ≤ d) : Covers first d e [] := by
  intro j hj hlt
  omega

/-- A round copies the next bytes, and the page keeps up with them. -/
theorem moved_spec (hpin : pin.uva = first + d / 4096 * 4096)
    (hf : RoundFits len d pin (.moved size last pin')) :
    ∃ d' : ℕ, (d : ℤ) + size = d' ∧ pin'.uva = first + d' / 4096 * 4096 ∧
      ChunkFits first len ⟨pin.uva, d, size, if last then some pin'.uva else none⟩ d ∧
      Covers first d d' [⟨pin.uva, d, size, if last then some pin'.uva else none⟩] := by
  obtain ⟨hd, ⟨room, hr, hc⟩, hu⟩ := hf
  obtain ⟨h0, -, hlen, htrue, hfalse⟩ := chunkSize_spec hr hd hc
  obtain ⟨n, rfl⟩ := Int.eq_ofNat_of_zero_le h0.le
  have hle : d + n ≤ (d / 4096 + 1) * 4096 := by
    cases last with
    | true => exact_mod_cast (htrue rfl).le
    | false => exact_mod_cast (hfalse rfl).le
  refine ⟨d + n, rfl, ?_, ⟨rfl, hpin, h0, hlen, Int.ofNat_le.mpr hle, ?_⟩, ?_⟩
  · rw [hu, hpin]
    unfold pageSize
    cases last with
    | true =>
      have h := htrue rfl
      simp only [if_true]
      omega
    | false =>
      have h := hfalse rfl
      simp only [Bool.false_eq_true, if_false]
      omega
  · intro u hnext
    cases last with
    | true =>
      simp only [if_true] at hu hnext
      cases hnext
      exact ⟨hu, htrue rfl⟩
    | false => cases hnext
  · intro j hj hlt
    refine ⟨_, List.mem_singleton.mpr rfl, Int.ofNat_le.mpr hj, hlt, ?_, fun hend => ?_⟩
    · show pin.uva = _
      rw [hpin]
      omega
    · cases last with
      | true =>
        simp only [if_true] at hu ⊢
        rw [hu]
        rfl
      | false =>
        -- the last byte of the stretch is not in the chunk
        have h := hfalse rfl
        omega

/-- The loop of a call up to its return or to `do_scheduler`. -/
theorem copyLoop_spec (hpin : pin.uva = first + d / 4096 * 4096) :
    (∀ p ∈ chunksOf (k.round c) fuel d pin s, ∃ d', ChunkFits first k.length p d') ∧
    (∀ v s', copyLoop (k.round c) k.point fuel d pin s = some (.ret v, s') →
      Covers first d k.length (chunksOf (k.round c) fuel d pin s)) ∧
    (∀ pt s', copyLoop (k.round c) k.point fuel d pin s = some (.sched pt, s') →
      ∃ (d' : ℕ) (pin' : Pin), pt = k.point d' pin' ∧ pin'.uva = first + d' / 4096 * 4096 ∧
        Covers first d d' (chunksOf (k.round c) fuel d pin s)) := by
  induction fuel generalizing d pin s with
  | zero => exact ⟨nofun, nofun, nofun⟩
  | succ fuel ih =>
    rw [copyLoop, chunksOf]
    cases hround : k.round c d pin s with
    | none => exact ⟨nofun, nofun, nofun⟩
    | some x =>
      obtain ⟨o, s1⟩ := x
      have hf := MboxCopy.round_fits hround
      cases o with
      | ended => exact ⟨nofun, fun v s' _ => covers_nil hf, nofun⟩
      | blocked =>
        refine ⟨nofun, nofun, fun pt s' h => ?_⟩
        cases h
        exact ⟨d, pin, rfl, hpin, covers_nil (le_refl _)⟩
      | exited size =>
        refine ⟨fun p hp => ?_, nofun, nofun⟩
        obtain ⟨hd, room, hr, hc⟩ := hf
        obtain ⟨h0, -, hlen, htrue, -⟩ := chunkSize_spec hr hd hc
        obtain rfl := List.mem_singleton.mp hp
        exact ⟨d, rfl, hpin, h0, hlen, (htrue rfl).le, nofun⟩
      | moved size last pin' =>
        obtain ⟨d1, hd1, hpin1, hfits, hcov⟩ := moved_spec hpin hf
        obtain ⟨ih1, ih2, ih3⟩ := ih (s := s1) hpin1
        simp only [Option.bind_some, hd1]
        refine ⟨fun p hp => ?_, fun v s' h => ?_, fun pt s' h => ?_⟩
        · rcases List.mem_cons.mp hp with rfl | hp
          · exact ⟨d, hfits⟩
          · exact ih1 p hp
        · exact hcov.append (le_refl _) (ih2 v s' h)
        · obtain ⟨d2, pin2, e2, hpin2, hcov2⟩ := ih3 pt s' h
          exact ⟨d2, pin2, e2, hpin2, hcov.append (le_refl _) hcov2⟩

theorem MboxCopy.point_inj {done' : ℤ} (h : k.point done pin = k.point done' pin') :
    done = done' ∧ pin = pin' := by
  cases k with
  | send =>
    cases h
    exact ⟨rfl, rfl⟩
  | recv =>
    cases h
    exact ⟨rfl, rfl⟩

/-- All the chunks of a call fit, and a call that has returned has copied all the bytes. -/
theorem CopyRun.spec (h : CopyRun k d pin s tr v) (hpin : pin.uva = first + d / 4096 * 4096) :
    (∀ p ∈ tr, ∃ d', ChunkFits first k.length p d') ∧ (v.isSome → Covers first d k.length tr) := by
  generalize hd : (d : ℤ) = done at h
  induction h generalizing d with
  | ret h =>
    subst hd
    rw [MboxCopy.loop_eq] at h
    obtain ⟨h1, h2, -⟩ := copyLoop_spec (k := k) hpin
    exact ⟨h1, fun _ => h2 _ _ h⟩
  | stop =>
    subst hd
    exact ⟨(copyLoop_spec hpin).1, nofun⟩
  | block h _ ih =>
    subst hd
    rw [MboxCopy.loop_eq] at h
    obtain ⟨h1, -, h3⟩ := copyLoop_spec (k := k) hpin
    obtain ⟨d1, pin1, e, hpin1, hcov⟩ := h3 _ _ h
    obtain ⟨rfl, rfl⟩ := MboxCopy.point_inj e
    obtain ⟨ih1, ih2⟩ := ih hpin1 rfl
    refine ⟨fun p hp => ?_, fun hv => hcov.append (le_refl _) (ih2 hv)⟩
    rcases List.mem_append.mp hp with hp | hp
    · exact h1 p hp
    · exact ih1 p hp

/-! ## The pages -/

/-- Where the message fits, a chunk is in its page, and the next page is one of the message. -/
theorem ChunkFits.pinned {p : Chunk} (hm : MessageFits msg len)
    (h : ChunkFits (rounddown msg pageSize) len p d) : ChunkPinned msg len p := by
  obtain ⟨hdone, huva, hpos, hlen, hstretch, hnext⟩ := h
  obtain ⟨hl, hm⟩ := hm
  have hd : p.done.toNat = d := by
    rw [hdone, Int.toNat_natCast]
  unfold rounddown pageSize at huva
  unfold pageSize at hm
  constructor
  · intro j hj
    rw [hd, huva]
    unfold pageSize
    rcases hm with ⟨ha, -⟩ | ⟨-, hb⟩ <;> omega
  · intro u hu
    obtain ⟨rfl, hend⟩ := hnext u hu
    rcases hm with ⟨ha, hb⟩ | ⟨ha, hb⟩
    · refine ⟨(d / 4096 + 1) * 4096, ?_, ?_, ?_⟩ <;> unfold pageSize at * <;> omega
    · omega

/-- A message that fits has a byte in its first page. -/
theorem MessageFits.inMessage (hm : MessageFits msg len) : InMessage msg len (rounddown msg pageSize) := by
  refine ⟨0, hm.1, ?_, ?_⟩ <;> unfold rounddown pageSize <;> omega

/-- Where all the bytes have been copied as they should, the message fits. -/
theorem TouchesOnly.fits (h : TouchesOnly msg len (rounddown msg pageSize) tr)
    (hc : Covers (rounddown msg pageSize) 0 len tr) : MessageFits msg len := by
  obtain ⟨⟨j0, hj0, -⟩, hall⟩ := h
  unfold rounddown at hc
  have hl : 0 < len := by omega
  refine ⟨hl, ?_⟩
  unfold pageSize at *
  by_cases ha : msg % 4096 = 0
  · refine Or.inl ⟨ha, fun hz => ?_⟩
    -- the last byte ends a page, and the page after it is pinned
    obtain ⟨p, hp, hcp⟩ := hc (len.toNat - 1) (Nat.zero_le _) (by omega)
    obtain ⟨j, hj, hge, -⟩ := (hall p hp).next _ (hcp.next (by omega))
    have huva := hcp.uva
    omega
  · refine Or.inr ⟨ha, ?_⟩
    by_contra hlt
    -- the first byte of the second page is copied with the first page pinned
    obtain ⟨p, hp, hcp⟩ := hc (4096 - msg % 4096) (Nat.zero_le _) (by omega)
    have huva := hcp.uva
    have hlow := hcp.lower
    have hup := hcp.upper
    have hin := (hall p hp).pinned (4096 - msg % 4096 - p.done.toNat)
    unfold pageSize at hin
    omega

/-- A call begins with the page of the first byte. -/
theorem MboxRun.spec (h : MboxRun k msg first tr v) : first = rounddown msg pageSize ∧
    (∀ p ∈ tr, ∃ d, ChunkFits first k.length p d) ∧ (v.isSome → Covers first 0 k.length tr) := by
  obtain ⟨-, -, hfirst, -, hrun⟩ := h
  refine ⟨pinFirst_uva hfirst, CopyRun.spec (d := 0) hrun ?_⟩
  rw [Nat.zero_div, Nat.zero_mul, Nat.add_zero]

/-- Every call of `do_mbox_send` or `do_mbox_recv` copies bytes of pinned pages only and pins pages of the message
only, if the message fits; one that has returned has done so only if it fits. -/
theorem touchesOnly_iff (h : MboxRun k msg first tr v) :
    (MessageFits msg k.length → TouchesOnly msg k.length first tr) ∧
      (v.isSome → (TouchesOnly msg k.length first tr ↔ MessageFits msg k.length)) := by
  obtain ⟨rfl, hchunks, hcov⟩ := h.spec
  have hfits : MessageFits msg k.length → TouchesOnly msg k.length (rounddown msg pageSize) tr := by
    intro hm
    refine ⟨hm.inMessage, fun p hp => ?_⟩
    obtain ⟨d, hd⟩ := hchunks p hp
    exact hd.pinned hm
  exact ⟨hfits, fun hv => ⟨fun h => h.fits (hcov hv), hfits⟩⟩

/-- The run of a call that does not block. -/
theorem mboxRun_of_ret {r : ℤ} (hi : k.box < mboxNum) (ho : (s.mailboxes k.box).userCount ≠ 0)
    (h : (k.call c msg s).map Prod.fst = some (.ret r)) : ∃ first tr, MboxRun k msg first tr (some r) := by
  obtain ⟨⟨o, s'⟩, e, rfl⟩ := Option.map_eq_some_iff.mp h
  rw [MboxCopy.call_eq hi ho, Option.bind_eq_some_iff] at e
  obtain ⟨⟨pin, s1⟩, h1, e⟩ := e
  obtain ⟨s2, h2, e⟩ := Option.bind_eq_some_iff.mp e
  exact ⟨pin.uva, _, .mk hi ho h1 h2 (.ret e)⟩

/-- Process 1 with its page at 0x10000, and open mailboxes. -/
def sender : Kernel :=
  { giver with mailboxes := fun _ => ⟨.unlocked, fun _ => 0#8, [109#8], 1, 0, 0⟩ }

/-- Eight bytes inside of the page are sent. -/
theorem touchesOnly_inside : ∃ first tr, MboxRun (.send 0 8 fun _ => 1#8) 0x10010 first tr (some 8) ∧
    TouchesOnly 0x10010 8 first tr := by
  have hrun : ∃ first tr, MboxRun (.send 0 8 fun _ => 1#8) 0x10010 first tr (some 8) :=
    mboxRun_of_ret (c := 0) (s := sender) (by decide) (by decide) (by decide +kernel)
  obtain ⟨first, tr, h⟩ := hrun
  exact ⟨first, tr, h, (touchesOnly_iff h).1 (by decide)⟩

/-- The second of two bytes is in the page after the one that is pinned. -/
theorem touchesOnly_across : ¬ ∀ k msg first tr v, MboxRun k msg first tr v →
    TouchesOnly msg k.length first tr := by
  intro hall
  have hrun : ∃ first tr, MboxRun (.send 0 2 fun _ => 1#8) 0x10fff first tr (some 2) :=
    mboxRun_of_ret (c := 0) (s := sender) (by decide) (by decide) (by decide +kernel)
  obtain ⟨first, tr, h⟩ := hrun
  have hok := hall _ _ _ _ _ h
  obtain ⟨rfl, -, hcov⟩ := h.spec
  have hfits : MessageFits 0x10fff 2 := hok.fits (hcov rfl)
  revert hfits
  decide

end RiscvKernel.Sched
