import RiscvKernel.Sched.Fifo
import RiscvKernel.Sched.Objects

/-!
# No lost wake-up

A mailbox and a pipe are bounded buffers: who has nothing to take or no room to give waits, and whoever
changes the buffer wakes the other side. So while somebody waits to give, the buffer is full, and while
somebody waits to take, it is empty (`NoneLost`, `run_noneLost`), as long as the swap area is not full: a
call that is ended by `add_to_active_list` wakes nobody.
-/

namespace RiscvKernel.Sched

open Lib Mm

variable {c i fuel : ℕ} {e : Env} {s s' s1 s2 : Kernel} {q q' q1 q2 : Queues} {t : Task} {call : Call}
  {point : Point} {a : Act} {as : List Act} {r : Kernel ⊕ Kernel} {N n k : ℤ} {giver taker : Prop}

/-! ## Bounded buffers -/

/-- Somebody waits to give only while the buffer is full, and to take only while it is empty. -/
structure NoneLost (N n : ℤ) (giver taker : Prop) : Prop where
  nonneg : 0 ≤ n
  le : n ≤ N
  full : giver → n = N
  empty : taker → n = 0

theorem NoneLost.mono {giver' taker' : Prop} (h : NoneLost N n giver taker) (hg : giver' → giver)
    (ht : taker' → taker) : NoneLost N n giver' taker' :=
  ⟨h.nonneg, h.le, fun h' => h.full (hg h'), fun h' => h.empty (ht h')⟩

/-- Who finds room and gives wakes the takers; nobody else waits to give. -/
theorem NoneLost.give {giver' : Prop} (h : NoneLost N n giver taker) (hg : giver' → giver) (hn : n < N)
    (hk : 0 ≤ k) (hle : n + k ≤ N) : NoneLost N (n + k) giver' False := by
  refine ⟨by have := h.nonneg; omega, hle, fun h' => ?_, False.elim⟩
  have := h.full (hg h')
  omega

/-- Who finds something and takes it wakes the givers; nobody else waits to take. -/
theorem NoneLost.take {taker' : Prop} (h : NoneLost N n giver taker) (ht : taker' → taker) (hn : 0 < n)
    (hk : 0 ≤ k) (hle : k ≤ n) : NoneLost N (n - k) False taker' := by
  refine ⟨by omega, by have := h.le; omega, False.elim, fun h' => ?_⟩
  have := h.empty (ht h')
  omega

/-- Who finds no room waits. -/
theorem NoneLost.waitGive {giver' taker' : Prop} (h : NoneLost N n giver taker) (hn : N ≤ n)
    (ht : taker' → taker) : NoneLost N n giver' taker' :=
  ⟨h.nonneg, h.le, fun _ => le_antisymm h.le hn, fun h' => h.empty (ht h')⟩

/-- Who finds nothing waits. -/
theorem NoneLost.waitTake {giver' taker' : Prop} (h : NoneLost N n giver taker) (hn : n ≤ 0)
    (hg : giver' → giver) : NoneLost N n giver' taker' :=
  ⟨h.nonneg, h.le, fun h' => h.full (hg h'), fun _ => le_antisymm hn h.nonneg⟩

theorem noneLost_reset (hN : 0 ≤ N) : NoneLost N 0 False False := ⟨le_rfl, hN, False.elim, False.elim⟩

/-! ## The swap area -/

/-- There is room in the swap area. -/
def SwapRoom (m : Memory) : Prop := (getFreeSwapId m).isSome

theorem swapOut_full {m m' : Memory} (h : swapOut m = some (none, m')) : ¬ SwapRoom m' := by
  obtain ⟨m1, -, h⟩ := Option.map_eq_some_iff.1 h
  split at h
  · rename_i hf
    cases h
    rw [SwapRoom, hf]
    simp
  · cases h

/-- `add_to_active_list` ends the process only when the swap area is full. -/
theorem addToActiveList_full {pa va pgdir : ℕ} {pid : ℤ} {m m' : Memory}
    (h : addToActiveList pa va pid pgdir m = some (false, m')) : ¬ SwapRoom m' := by
  unfold addToActiveList at h
  split_ifs at h
  · split at h
    · cases h
    · dsimp only at h
      split at h <;> cases h
  · obtain ⟨⟨o, m1⟩, h1, h2⟩ := Option.map_eq_some_iff.1 h
    cases o with
    | none =>
      cases h2
      exact swapOut_full h1
    | some idx =>
      dsimp only at h2
      split at h2 <;> cases h2

theorem pinNextIf_full {last : Bool} {pin pin' : Pin} (h : pinNextIf c last pin s = some (false, pin', s')) :
    ¬ SwapRoom s'.memory := by
  unfold pinNextIf pinNext at h
  split_ifs at h
  · simp only [Option.bind_eq_bind, Option.bind_eq_some_iff] at h
    obtain ⟨⟨ok, m⟩, h1, h2⟩ := h
    cases ok with
    | false =>
      cases h2
      exact addToActiveList_full h1
    | true =>
      simp only [Bool.not_true, Bool.false_eq_true, if_false, Option.bind_eq_some_iff] at h2
      obtain ⟨m', -, h2⟩ := h2
      cases h2
  · cases h

/-! ## Mailboxes -/

/-- The counters are `int`s, and nobody waits for the ring without a reason. -/
structure MboxWaits (i : ℕ) (s : Kernel) (q : Queues) : Prop where
  nwrite : i32 (s.mailboxes i).nwrite = (s.mailboxes i).nwrite
  nread : i32 (s.mailboxes i).nread = (s.mailboxes i).nread
  waits : NoneLost maxMboxLength (ringUsed (s.mailboxes i)) (q (.send i) ≠ []) (q (.recv i) ≠ [])

theorem MboxWaits.congr (W : MboxWaits i s q) (hw : (s'.mailboxes i).nwrite = (s.mailboxes i).nwrite)
    (hr : (s'.mailboxes i).nread = (s.mailboxes i).nread) (hs : q' (.send i) = q (.send i))
    (ht : q' (.recv i) = q (.recv i)) : MboxWaits i s' q' := by
  refine ⟨by rw [hw, W.nwrite], by rw [hr, W.nread], ?_⟩
  rw [ringUsed, hw, hr, hs, ht]
  exact W.waits

theorem ringUsed_eq {x y : ℤ} (h0 : 0 ≤ x) (h1 : x ≤ maxMboxLength) (h : y.bmod (2 ^ 32) = x.bmod (2 ^ 32)) :
    i32 y = x := by
  have hm : (maxMboxLength : ℤ) = 64 := rfl
  show y.bmod (2 ^ 32) = x
  rw [h]
  exact i32_eq (by omega) (by omega)

/-- The copy loop of `do_mbox_send`. -/
theorem putBytes_counters {bs : List Byte} {m m' : Mailbox} (h : putBytes bs m = some m')
    (hw : i32 m.nwrite = m.nwrite) :
    m'.nwrite = i32 (m.nwrite + bs.length) ∧ m'.nread = m.nread := by
  induction bs generalizing m with
  | nil =>
    cases h
    exact ⟨by rw [List.length_nil, Nat.cast_zero, add_zero, hw], rfl⟩
  | cons b bs ih =>
    obtain ⟨m1, h1, h2⟩ := Option.bind_eq_some_iff.1 h
    obtain ⟨k, -, rfl⟩ := Option.map_eq_some_iff.1 h1
    obtain ⟨h3, h4⟩ := ih h2 (Int.bmod_bmod ..)
    refine ⟨h3.trans ?_, h4⟩
    show i32 (i32 (m.nwrite + 1) + bs.length) = _
    rw [show i32 (i32 (m.nwrite + 1) + bs.length) = i32 (m.nwrite + 1 + bs.length) from Int.bmod_add_bmod,
      List.length_cons, Nat.cast_succ, add_assoc, add_comm (1 : ℤ)]

/-- The copy loop of `do_mbox_recv`. -/
theorem getBytes_counters {n : ℕ} {bs : List Byte} {m m' : Mailbox} (h : getBytes n m = some (bs, m'))
    (hr : i32 m.nread = m.nread) : m'.nread = i32 (m.nread + n) ∧ m'.nwrite = m.nwrite := by
  induction n generalizing m bs with
  | zero =>
    cases h
    exact ⟨by rw [Nat.cast_zero, add_zero, hr], rfl⟩
  | succ n ih =>
    obtain ⟨⟨b, m1⟩, h1, h2⟩ := Option.bind_eq_some_iff.1 h
    obtain ⟨⟨bs', m2⟩, h3, h4⟩ := Option.bind_eq_some_iff.1 h2
    cases h4
    obtain ⟨k, -, h5⟩ := Option.map_eq_some_iff.1 h1
    cases h5
    obtain ⟨h6, h7⟩ := ih h3 (Int.bmod_bmod ..)
    refine ⟨h6.trans ?_, h7⟩
    show i32 (i32 (m.nread + 1) + n) = _
    rw [show i32 (i32 (m.nread + 1) + n) = i32 (m.nread + 1 + n) from Int.bmod_add_bmod,
      Nat.cast_succ, add_assoc, add_comm (1 : ℤ)]

/-- A chunk goes into the ring and the receivers are woken. -/
theorem MboxWaits.put (W : MboxWaits i s q) {bs : List Byte} {m : Mailbox}
    (h : putBytes bs (s.mailboxes i) = some m) (hm : s'.mailboxes i = m)
    (hroom : ringUsed (s.mailboxes i) < maxMboxLength)
    (hle : ringUsed (s.mailboxes i) + bs.length ≤ maxMboxLength) (hs : q' (.send i) = q (.send i))
    (ht : q' (.recv i) = []) : MboxWaits i s' q' := by
  obtain ⟨h1, h2⟩ := putBytes_counters h W.nwrite
  have hu : ringUsed m = ringUsed (s.mailboxes i) + bs.length := by
    refine ringUsed_eq (by have := W.waits.nonneg; omega) hle ?_
    rw [h1, h2]
    unfold ringUsed i32
    rw [Int.bmod_sub_bmod, Int.bmod_add_bmod, add_sub_right_comm]
  refine ⟨?_, ?_, ?_⟩
  · rw [hm, h1]
    exact Int.bmod_bmod ..
  · rw [hm, h2, W.nread]
  · rw [hm, hu, hs, ht]
    exact (W.waits.give (fun h => h) hroom (Int.natCast_nonneg _) hle).mono (fun h => h) (absurd rfl)

/-- A chunk is taken out of the ring and the senders are woken. -/
theorem MboxWaits.get (W : MboxWaits i s q) {n : ℕ} {bs : List Byte} {m : Mailbox}
    (h : getBytes n (s.mailboxes i) = some (bs, m)) (hm : s'.mailboxes i = m)
    (hdata : 0 < ringUsed (s.mailboxes i)) (hle : n ≤ ringUsed (s.mailboxes i)) (hs : q' (.send i) = [])
    (ht : q' (.recv i) = q (.recv i)) : MboxWaits i s' q' := by
  obtain ⟨h1, h2⟩ := getBytes_counters h W.nread
  have hu : ringUsed m = ringUsed (s.mailboxes i) - n := by
    refine ringUsed_eq (by omega) (by have := W.waits.le; omega) ?_
    rw [h1, h2]
    unfold ringUsed i32
    rw [Int.sub_bmod_bmod, Int.bmod_sub_bmod, sub_sub]
  refine ⟨?_, ?_, ?_⟩
  · rw [hm, h2, W.nwrite]
  · rw [hm, h1]
    exact Int.bmod_bmod ..
  · rw [hm, hu, hs, ht]
    exact (W.waits.take (fun h => h) hdata (Int.natCast_nonneg _) hle).mono (absurd rfl) (fun h => h)

/-- A round that has copied a chunk. -/
theorem ChunkEnds.busy {h : Head} {pin : Pin} {size : ℤ} {last : Bool} {o : CopyRound}
    (he : ChunkEnds h pin size last s o s') (B : Busy c s q) (hh : h ≠ .ready) (ho : o ≠ .exited size) :
    ∃ pin', o = .moved size last pin' ∧ Busy c s' (movedAll q h [] (q h)) ∧ s'.current = s.current ∧
      s'.mailboxes = s.mailboxes := by
  rcases he with ⟨h1, -⟩ | ⟨pin', h1, -, hw⟩
  · exact absurd h1 ho
  · obtain ⟨l, h2, h3⟩ := B.mid.wakeup hh
    rw [h2] at hw
    cases hw
    exact ⟨pin', h1, B.woken (fun _ hu => hu) h3, rfl, rfl⟩

theorem movedAll_other (q : Queues) {h h' : Head} (xs ts : List Task) (hh : h' ≠ h) (hr : h' ≠ .ready) :
    movedAll q h xs ts h' = q h' := by
  rw [movedAll, Function.update_of_ne hr, Function.update_of_ne hh]

/-- What a round does to those who wait: the loop is left with everything in order, or goes on. -/
def RoundWaits (c i : ℕ) (s : Kernel) (o : CopyRound) (s' : Kernel) : Prop :=
  ∃ q', Mid (some c) s' q' ∧ MboxWaits i s' q' ∧
    ((∃ x last pin, o = .moved x last pin) → Busy c s' q' ∧ s'.current = s.current)

theorem MboxWaits.release (W : MboxWaits i s q) : MboxWaits i (releaseMailboxSpin i s) q := by
  refine W.congr ?_ ?_ rfl rfl
  · rw [releaseMailboxSpin_self]
  · rw [releaseMailboxSpin_self]

/-- The process finds the ring full or empty and waits. -/
theorem Busy.waitMbox {h : Head} (B : Busy c s q) (ht : ∃ j, s.current c = .pcb j) (hh : Open s h)
    (hw : i32 (s.mailboxes i).nwrite = (s.mailboxes i).nwrite)
    (hr : i32 (s.mailboxes i).nread = (s.mailboxes i).nread)
    (W : NoneLost maxMboxLength (ringUsed (s.mailboxes i)) (push q h (s.current c) (.send i) ≠ [])
      (push q h (s.current c) (.recv i) ≠ [])) :
    RoundWaits c i s .blocked (releaseMailboxSpin i (doBlock (s.current c) h s)) := by
  have M : Mid (some c) (doBlock (s.current c) h s) (push q h (s.current c)) :=
    (B.block (P := fun _ => True) ht hh trivial).mid B.mid
  have hm : (doBlock (s.current c) h s).mailboxes = s.mailboxes := doBlock_mailboxes _ _ _
  refine ⟨push q h (s.current c), M, MboxWaits.release ⟨?_, ?_, ?_⟩, by simp⟩
  · rw [hm, hw]
  · rw [hm, hr]
  · rw [hm]
    exact W

theorem sendRound_waits {len done : ℤ} {data : ℕ → Byte} {pin : Pin} {o : CopyRound} (B : Busy c s q)
    (ht : ∃ j, s.current c = .pcb j) (W : MboxWaits i s q)
    (h : sendRound c i len data done pin s = some (o, s')) (ho : ∀ x, o ≠ .exited x) :
    RoundWaits c i s o s' := by
  rcases sendRound_cases h with ⟨-, rfl, rfl⟩ | ⟨-, hfull, rfl, rfl⟩ | ⟨size, last, m, mem, -, hroom, hc, hm, he⟩
  · exact ⟨q, B.mid, W.release, by simp⟩
  · refine B.waitMbox ht ⟨by simp, by simp, by simp⟩ W.nwrite W.nread ?_
    refine W.waits.waitGive (by unfold ringUsed; omega) fun h => ?_
    rwa [push_of_ne (by simp)] at h
  · have hle := chunkSize_le (maxMboxLength - ringUsed (s.mailboxes i)) len done
    rw [show chunkSize (maxMboxLength - ringUsed (s.mailboxes i)) len done = (size, last) from hc] at hle
    have B1 := ((B.setMailbox i m).addLog (.put i (s.current c)
      ((List.range size.toNat).map fun k => data (done.toNat + k)))).setMemory mem
    obtain ⟨pin', rfl, B2, hcur, hmb⟩ := he.busy B1 (by simp) (ho _)
    refine ⟨_, B2.mid, ?_, fun _ => ⟨B2, hcur⟩⟩
    have hroom : 0 < maxMboxLength - ringUsed (s.mailboxes i) := hroom
    refine W.put hm ?_ (by omega) ?_ (movedAll_other q [] _ (by simp) (by simp))
      (movedAll_self q (by simp) [] _)
    · rw [hmb]
      exact Function.update_self ..
    · rw [List.length_map, List.length_range]
      omega

theorem recvRound_waits {len done : ℤ} {pin : Pin} {o : CopyRound} (B : Busy c s q)
    (ht : ∃ j, s.current c = .pcb j) (W : MboxWaits i s q)
    (h : recvRound c i len done pin s = some (o, s')) (ho : ∀ x, o ≠ .exited x) :
    RoundWaits c i s o s' := by
  rcases recvRound_cases h with ⟨-, rfl, rfl⟩ | ⟨-, hempty, rfl, rfl⟩ |
    ⟨size, last, bs, m, mem, -, hdata, hc, hm, he⟩
  · exact ⟨q, B.mid, W.release, by simp⟩
  · refine B.waitMbox ht ⟨by simp, by simp, by simp⟩ W.nwrite W.nread ?_
    refine W.waits.waitTake hempty fun h => ?_
    rwa [push_of_ne (by simp)] at h
  · have hle := chunkSize_le (ringUsed (s.mailboxes i)) len done
    rw [show chunkSize (ringUsed (s.mailboxes i)) len done = (size, last) from hc] at hle
    have B1 := ((B.setMailbox i m).addLog (.got i (s.current c) bs)).setMemory mem
    obtain ⟨pin', rfl, B2, hcur, hmb⟩ := he.busy B1 (by simp) (ho _)
    refine ⟨_, B2.mid, ?_, fun _ => ⟨B2, hcur⟩⟩
    have hdata : 0 < ringUsed (s.mailboxes i) := hdata
    refine W.get hm ?_ hdata (by omega) (movedAll_self q (by simp) [] _)
      (movedAll_other q [] _ (by simp) (by simp))
    rw [hmb]
    exact Function.update_self ..

theorem MboxCopy.round_waits {k : MboxCopy} {done : ℤ} {pin : Pin} {o : CopyRound} (B : Busy c s q)
    (ht : ∃ j, s.current c = .pcb j) (W : MboxWaits k.box s q)
    (h : k.round c done pin s = some (o, s')) (ho : ∀ x, o ≠ .exited x) : RoundWaits c k.box s o s' := by
  cases k with
  | send i len data => exact sendRound_waits B ht W h ho
  | recv i len => exact recvRound_waits B ht W h ho

/-- A round ends the process only when the swap area is full. -/
theorem MboxCopy.round_exited {k : MboxCopy} {done x : ℤ} {pin : Pin}
    (h : k.round c done pin s = some (.exited x, s')) : ¬ SwapRoom s'.memory := by
  cases k with
  | send i len data =>
    have h : sendRound c i len data done pin s = some (.exited x, s') := h
    unfold sendRound at h
    split_ifs at h
    · dsimp only at h
      split_ifs at h
      · simp only [Option.bind_eq_bind, Option.bind_eq_some_iff] at h
        obtain ⟨m, -, ⟨ok, pin1, s1⟩, hpin, h⟩ := h
        cases ok with
        | false =>
          cases h
          exact pinNextIf_full hpin
        | true =>
          simp only [Bool.not_true, Bool.false_eq_true, if_false, Option.bind_eq_some_iff] at h
          obtain ⟨s2, -, h⟩ := h
          cases h
      · cases h
    · cases h
  | recv i len =>
    have h : recvRound c i len done pin s = some (.exited x, s') := h
    unfold recvRound at h
    split_ifs at h
    · dsimp only at h
      split_ifs at h
      · simp only [Option.bind_eq_bind, Option.bind_eq_some_iff] at h
        obtain ⟨⟨bs, m⟩, -, ⟨ok, pin1, s1⟩, hpin, h⟩ := h
        cases ok with
        | false =>
          cases h
          exact pinNextIf_full hpin
        | true =>
          simp only [Bool.not_true, Bool.false_eq_true, if_false, Option.bind_eq_some_iff] at h
          obtain ⟨s2, -, h⟩ := h
          cases h
      · cases h
    · cases h

/-- **A part of a call** keeps those who wait in order, unless the swap area is full. -/
theorem MboxCopy.loop_waits {k : MboxCopy} {done : ℤ} {pin : Pin} {o : Out} (B : Busy c s q)
    (ht : ∃ j, s.current c = .pcb j) (W : MboxWaits k.box s q)
    (hs : copyLoop (k.round c) k.point fuel done pin s = some (o, s')) (hr : SwapRoom s'.memory) :
    ∃ q', Mid (some c) s' q' ∧ MboxWaits k.box s' q' ∧ o ≠ .exit := by
  induction fuel generalizing done pin s q with
  | zero => cases hs
  | succ fuel ih =>
    rw [copyLoop] at hs
    obtain ⟨⟨r, s1⟩, hround, hs⟩ := Option.bind_eq_some_iff.1 hs
    cases r with
    | ended =>
      obtain ⟨q', M, W', -⟩ := MboxCopy.round_waits B ht W hround (by simp)
      cases hs
      exact ⟨q', M, W', by simp⟩
    | blocked =>
      obtain ⟨q', M, W', -⟩ := MboxCopy.round_waits B ht W hround (by simp)
      cases hs
      exact ⟨q', M, W', by simp⟩
    | exited x =>
      cases hs
      exact absurd hr (MboxCopy.round_exited hround)
    | moved x last pin' =>
      obtain ⟨q', M, W', hgo⟩ := MboxCopy.round_waits B ht W hround (by simp)
      obtain ⟨B', hcur⟩ := hgo ⟨x, last, pin', rfl⟩
      exact ih B' (by rwa [hcur]) W' hs

/-! ## Steps -/

/-- What the call of a step comes to by itself, before the process goes back or `do_scheduler` runs. -/
def Act.part (s : Kernel) (a : Act) : Option (Out × Kernel) :=
  match a.move with
  | .enter call => syscall a.cpu a.env (entered a.cpu call s) call
  | .go =>
    match s.cont (s.current a.cpu) with
    | .inCall call point => resume a.cpu a.env s call point
    | _ => none

instance (m : Memory) : Decidable (SwapRoom m) := inferInstanceAs (Decidable (_ = true))

/-- A step without `do_kill` at the end of whose call the swap area is not full. -/
def SwapFree (s : Kernel) (a : Act) : Prop := NoKill s a ∧ ∀ x ∈ a.part s, SwapRoom x.2.memory

instance (s : Kernel) (a : Act) : Decidable (SwapFree s a) := inferInstanceAs (Decidable (_ ∧ _))

/-- Mailbox `i` is in order after the first part of a step. -/
def MboxAfter (i : ℕ) (r : Kernel ⊕ Kernel) : Prop :=
  ∃ q1, Rings (r.elim id id).links q1 ∧ MboxWaits i (r.elim id id) q1

theorem MboxWaits.after {o : Out} (W : MboxWaits i s1 q1) (M : Mid (some c) s1 q1) (ho : o ≠ .exit)
    (hs : following c call (o, s1) = some r) : MboxAfter i r := by
  cases o with
  | ret v =>
    cases hs
    exact ⟨q1, M.rings, W.congr rfl rfl rfl rfl⟩
  | sched point =>
    cases hs
    exact ⟨q1, M.rings, W.congr rfl rfl rfl rfl⟩
  | exit => exact absurd rfl ho

/-- `do_mbox_open` leaves the ring alone. -/
theorem doMboxOpen_keeps {name : CStr} {x : ℤ × Kernel} (h : doMboxOpen name s = some x) :
    x.2.links = s.links ∧ (x.2.mailboxes i).nwrite = (s.mailboxes i).nwrite ∧
      (x.2.mailboxes i).nread = (s.mailboxes i).nread := by
  have hset : ∀ (j : ℕ) (m : Mailbox), m.nwrite = (s.mailboxes j).nwrite →
      m.nread = (s.mailboxes j).nread → ((s.setMailbox j m).mailboxes i).nwrite = (s.mailboxes i).nwrite ∧
        ((s.setMailbox j m).mailboxes i).nread = (s.mailboxes i).nread := by
    intro j m hw hr
    by_cases e : i = j
    · subst e
      rw [show (s.setMailbox i m).mailboxes i = m from Function.update_self ..]
      exact ⟨hw, hr⟩
    · rw [show (s.setMailbox j m).mailboxes i = s.mailboxes i from Function.update_of_ne e ..]
      exact ⟨rfl, rfl⟩
  unfold doMboxOpen at h
  split at h
  · cases h
    exact ⟨rfl, hset _ _ rfl rfl⟩
  · split at h
    · split_ifs at h
      cases h
      exact ⟨rfl, hset _ _ rfl rfl⟩
    · cases h
      exact ⟨rfl, rfl, rfl⟩

/-- **do_mbox_close** resets the ring and wakes everybody, or changes the number of users. -/
theorem mboxClose_waits (M : Mid (some c) s q) (W : MboxWaits i s q) (hi : i < mboxNum)
    (hs : doMboxClose i s = some s') : ∃ q', Mid (some c) s' q' ∧ MboxWaits i s' q' := by
  rw [doMboxClose_eq hi] at hs
  split_ifs at hs with hu
  · generalize hm : ({ s.mailboxes i with userCount := 0, nread := 0, nwrite := 0 } : Mailbox) = m at hs
    have hself : (s.setMailbox i m).mailboxes i = m := Function.update_self ..
    have M1 : Mid (some c) (s.setMailbox i m) q := M
    obtain ⟨l1, h1, M2⟩ := M1.wakeup (h := .recv i) (by simp)
    obtain ⟨l2, h2, M3⟩ := M2.wakeup (h := .send i) (by simp)
    rw [h1, Option.bind_some, h2] at hs
    cases hs
    refine ⟨_, M3, ?_, ?_, ?_⟩
    · show i32 ((s.setMailbox i m).mailboxes i).nwrite = ((s.setMailbox i m).mailboxes i).nwrite
      rw [hself, ← hm]
      rfl
    · show i32 ((s.setMailbox i m).mailboxes i).nread = ((s.setMailbox i m).mailboxes i).nread
      rw [hself, ← hm]
      rfl
    · show NoneLost maxMboxLength (ringUsed ((s.setMailbox i m).mailboxes i)) _ _
      have hused : ringUsed m = 0 := by rw [← hm]; rfl
      rw [hself, hused]
      refine (noneLost_reset (by norm_num)).mono (fun h => h ?_) fun h => h ?_
      · exact movedAll_self _ (by simp) [] _
      · rw [movedAll_other _ [] _ (by simp) (by simp)]
        exact movedAll_self _ (by simp) [] _
  · cases hs
    have hself : ∀ m : Mailbox, (s.setMailbox i m).mailboxes i = m := fun m => Function.update_self ..
    exact ⟨q, M, W.congr (by rw [hself]) (by rw [hself]) rfl rfl⟩

theorem MboxWaits.acquire (W : MboxWaits i s q) (h : acquireMailboxSpin i s = some s1) :
    MboxWaits i s1 q := by
  obtain ⟨-, rfl⟩ := acquireMailboxSpin_eq h
  have hself : ∀ m : Mailbox, (s.setMailbox i m).mailboxes i = m := fun m => Function.update_self ..
  exact W.congr (by rw [hself]) (by rw [hself]) rfl rfl

/-- A call that goes on. -/
theorem MboxCopy.resume_waits {k : MboxCopy} {done : ℤ} {pin : Pin} {o : Out} (B : Busy c s q)
    (ht : ∃ j, s.current c = .pcb j) (W : MboxWaits k.box s q) (hs : k.resume c done pin s = some (o, s'))
    (hr : SwapRoom s'.memory) : ∃ q', Mid (some c) s' q' ∧ MboxWaits k.box s' q' ∧ o ≠ .exit := by
  rw [k.resume_eq] at hs
  obtain ⟨s1, h1, h2⟩ := Option.bind_eq_some_iff.1 hs
  rw [MboxCopy.loop_eq] at h2
  have W1 := W.acquire h1
  obtain ⟨-, rfl⟩ := acquireMailboxSpin_eq h1
  exact MboxCopy.loop_waits (B.setMailbox _ _) ht W1 h2 hr

/-- A call that starts. -/
theorem MboxCopy.call_waits {k : MboxCopy} {msg : ℕ} {o : Out} (B : Busy c s q)
    (ht : ∃ j, s.current c = .pcb j) (W : MboxWaits k.box s q) (hi : k.box < mboxNum)
    (hs : k.call c msg s = some (o, s')) (hr : SwapRoom s'.memory) :
    ∃ q', Mid (some c) s' q' ∧ MboxWaits k.box s' q' ∧ o ≠ .exit := by
  by_cases hu : (s.mailboxes k.box).userCount = 0
  · have hret : k.call c msg s = some (.ret (-1), s) := by
      cases k with
      | send i len data =>
        have hu : (s.mailboxes i).userCount = 0 := hu
        show doMboxSend c i msg len data s = _
        rw [doMboxSend, if_neg (mboxIdx_ok (i := i) hi), Int.toNat_natCast, if_pos hu]
      | recv i len =>
        have hu : (s.mailboxes i).userCount = 0 := hu
        show doMboxRecv c i msg len s = _
        rw [doMboxRecv, if_neg (mboxIdx_ok (i := i) hi), Int.toNat_natCast, if_pos hu]
    rw [hret] at hs
    cases hs
    exact ⟨q, B.mid, W, by simp⟩
  · rw [MboxCopy.call_eq hi hu] at hs
    obtain ⟨⟨pin, s1⟩, h1, h2⟩ := Option.bind_eq_some_iff.1 hs
    obtain ⟨m, h3⟩ := pinFirst_eq h1
    have h3 : s1 = s.setMemory m := h3
    subst h3
    have W1 : MboxWaits k.box (s.setMemory m) q := W.congr rfl rfl rfl rfl
    rw [← MboxCopy.resume_eq] at h2
    exact MboxCopy.resume_waits (B.setMemory m) ht W1 h2 hr

/-- A call about the mailbox. -/
theorem Call.aboutMbox (h : call.about (.mbox i)) : (∃ name, call = .mboxOpen name) ∨
    call = .mboxClose i ∨ (∃ msg len, call = .mboxSend i msg len) ∨ ∃ msg len, call = .mboxRecv i msg len := by
  cases call with
  | mboxOpen name => exact Or.inl ⟨name, rfl⟩
  | mboxClose idx =>
    obtain ⟨j, rfl, hj⟩ := h
    cases hj
    exact Or.inr (Or.inl rfl)
  | mboxSend idx msg len =>
    obtain ⟨j, rfl, hj⟩ := h.resolve_left (by simp)
    cases hj
    exact Or.inr (Or.inr (Or.inl ⟨msg, len, rfl⟩))
  | mboxRecv idx msg len =>
    obtain ⟨j, rfl, hj⟩ := h.resolve_left (by simp)
    cases hj
    exact Or.inr (Or.inr (Or.inr ⟨msg, len, rfl⟩))
  | _ => simp [Call.about, At] at h

theorem enter_mbox (H : Good none s q) (A : Alive s) (hi : i < mboxNum) (hm : call.madeBy (s.current c))
    (W : MboxWaits i s q) (hb : call.about (.mbox i))
    (hr : ∀ x ∈ syscall c e (entered c call s) call, SwapRoom x.2.memory)
    (hs : (syscall c e (entered c call s) call).bind (following c call) = some r) : MboxAfter i r := by
  have H0 : Good none (entered c call s) q := H.enter
  have B0 : Busy c (entered c call s) q := H0.busy (A.cur H c)
  have W0 : MboxWaits i (entered c call s) q := W.congr rfl rfl rfl rfl
  obtain ⟨⟨o, s1⟩, h1, h2⟩ := Option.bind_eq_some_iff.1 hs
  have hroom : SwapRoom s1.memory := hr _ h1
  rcases Call.aboutMbox hb with ⟨name, rfl⟩ | rfl | ⟨msg, len, rfl⟩ | ⟨msg, len, rfl⟩
  · obtain ⟨⟨v, s2⟩, h3, h4⟩ := Option.map_eq_some_iff.1 h1
    cases h4
    obtain ⟨hl, hw, hd⟩ := doMboxOpen_keeps (i := i) h3
    cases h2
    refine ⟨q, ?_, W0.congr hw hd rfl rfl⟩
    show Rings s2.links q
    rw [show s2.links = (entered c (.mboxOpen name) s).links from hl]
    exact B0.mid.rings
  · obtain ⟨s2, h3, h4⟩ := Option.map_eq_some_iff.1 h1
    cases h4
    obtain ⟨q1, M, W1⟩ := mboxClose_waits B0.mid W0 hi h3
    exact W1.after M (by simp) h2
  · have ht := Call.madeBy_pcb hm (by simp) (by simp)
    have h1 : MboxCopy.call c msg (entered c (.mboxSend i msg len) s) (.send i len e.data) =
      some (o, s1) := h1
    obtain ⟨q1, M, W1, ho⟩ := MboxCopy.call_waits (k := .send i len e.data) B0 ht W0 hi h1 hroom
    exact MboxWaits.after W1 M ho h2
  · have ht := Call.madeBy_pcb hm (by simp) (by simp)
    have h1 : MboxCopy.call c msg (entered c (.mboxRecv i msg len) s) (.recv i len) = some (o, s1) := h1
    obtain ⟨q1, M, W1, ho⟩ := MboxCopy.call_waits (k := .recv i len) B0 ht W0 hi h1 hroom
    exact MboxWaits.after W1 M ho h2

theorem go_mbox (H : Good none s q) (A : Alive s) (hc : s.cont (s.current c) = .inCall call point)
    (W : MboxWaits i s q) (hb : call.about (.mbox i))
    (hr : ∀ x ∈ resume c e s call point, SwapRoom x.2.memory)
    (hs : (resume c e s call point).bind (following c call) = some r) : MboxAfter i r := by
  obtain ⟨hm, hf⟩ := H.cont _ _ _ hc
  have B : Busy c s q := H.busy (A.cur H c)
  obtain ⟨⟨o, s1⟩, h1, h2⟩ := Option.bind_eq_some_iff.1 hs
  have hroom : SwapRoom s1.memory := hr _ h1
  by_cases hv : ∃ v, point = .ret v
  · obtain ⟨v, rfl⟩ := hv
    cases h1
    exact W.after B.mid (by simp) h2
  rcases Call.aboutMbox hb with ⟨name, rfl⟩ | rfl | ⟨msg, len, rfl⟩ | ⟨msg, len, rfl⟩
  · cases point <;> simp_all [Fits]
  · cases point <;> simp_all [Fits]
  · have ht := Call.madeBy_pcb hm (by simp) (by simp)
    cases point with
    | send sent pin =>
      obtain ⟨q1, M, W1, ho⟩ := MboxCopy.resume_waits (k := .send i len e.data) B ht W h1 hroom
      exact MboxWaits.after W1 M ho h2
    | ret v => exact absurd ⟨v, rfl⟩ hv
    | _ => exact hf.elim
  · have ht := Call.madeBy_pcb hm (by simp) (by simp)
    cases point with
    | recv read pin =>
      obtain ⟨q1, M, W1, ho⟩ := MboxCopy.resume_waits (k := .recv i len) B ht W h1 hroom
      exact MboxWaits.after W1 M ho h2
    | ret v => exact absurd ⟨v, rfl⟩ hv
    | _ => exact hf.elim

/-- **A step keeps those who wait for a mailbox in order.** -/
theorem segment_mbox (H : Good none s q) (A : Alive s) (he : Enabled s a) (hx : SwapFree s a)
    (hi : i < mboxNum) (W : MboxWaits i s q) (hs : segment s a = some r) : MboxAfter i r := by
  by_cases hb : ∃ call, a.callOf s = some call ∧ call.about (.mbox i)
  · obtain ⟨call, hcall, hb⟩ := hb
    obtain ⟨c, env, move⟩ := a
    cases move with
    | enter _ =>
      cases hcall
      exact enter_mbox H A hi he.2.2 W hb hx.2 (segment_enter H A hs)
    | go =>
      cases hc : s.cont (s.current c) with
      | inCall _ point =>
        have hr := hx.2
        simp only [Act.part, hc] at hr
        simp only [Act.callOf, hc] at hcall
        cases hcall
        exact go_mbox H A hc W hb hr (segment_go H A hc hs)
      | _ => simp [Act.callOf, hc] at hcall
  · have hn : ∀ call, a.callOf s = some call → ¬ call.about (.mbox i) := fun call h h' => hb ⟨call, h, h'⟩
    obtain ⟨q1, hr, hap⟩ := segment_apart H A he hx.1.2 hn (by simp [Call.about]) hs
    have hm := hap.mailbox i rfl
    exact ⟨q1, hr, W.congr (by rw [hm]) (by rw [hm]) (hap.queue (.send i) rfl (by simp))
      (hap.queue (.recv i) rfl (by simp))⟩

/-! ## Pipes -/

/-- The process is in `sys_pipe_give_pages` on pipe `i`. -/
def Gives (i : ℕ) (k : Cont) : Prop := ∃ src len point, k = .inCall (.pipeGive i src len) point

/-- The process is in `sys_pipe_take_pages` on pipe `i`. -/
def Takes (i : ℕ) (k : Cont) : Prop := ∃ dst len point, k = .inCall (.pipeTake i dst len) point

/-- Those who wait for pipe `i` are in one of its calls, and nobody waits without a reason. -/
structure PipeWaits (i : ℕ) (cont : Task → Cont) (n : ℤ) (waiting : List Task) : Prop where
  calls : ∀ t ∈ waiting, Gives i (cont t) ∨ Takes i (cont t)
  waits : NoneLost pipeBufferSize n (∃ t ∈ waiting, Gives i (cont t)) (∃ t ∈ waiting, Takes i (cont t))

/-- The whole queue has been woken. -/
theorem pipeWaits_woken (cont : Task → Cont) (h : NoneLost pipeBufferSize n False False) :
    PipeWaits i cont n [] := ⟨by simp, h.mono (by simp) (by simp)⟩

theorem PipeWaits.congr {cont cont' : Task → Cont} {ts : List Task} (W : PipeWaits i cont n ts)
    (hc : ∀ t ∈ ts, cont' t = cont t) : PipeWaits i cont' n ts := by
  refine ⟨fun t ht => ?_, W.waits.mono ?_ ?_⟩
  · rw [hc t ht]
    exact W.calls t ht
  · rintro ⟨t, ht, h⟩
    rw [hc t ht] at h
    exact ⟨t, ht, h⟩
  · rintro ⟨t, ht, h⟩
    rw [hc t ht] at h
    exact ⟨t, ht, h⟩

/-- One more waits to give. -/
theorem PipeWaits.waitGive {cont : Task → Cont} {ts : List Task} (W : PipeWaits i cont n ts)
    (hn : pipeBufferSize ≤ n) (ht : Gives i (cont t)) (hno : ¬ Takes i (cont t)) :
    PipeWaits i cont n (ts ++ [t]) := by
  refine ⟨fun u hu => ?_, W.waits.waitGive hn ?_⟩
  · rcases List.mem_append.1 hu with hu | hu
    · exact W.calls u hu
    · exact Or.inl (List.mem_singleton.1 hu ▸ ht)
  · rintro ⟨u, hu, h⟩
    rcases List.mem_append.1 hu with hu | hu
    · exact ⟨u, hu, h⟩
    · exact absurd (List.mem_singleton.1 hu ▸ h) hno

/-- One more waits to take. -/
theorem PipeWaits.waitTake {cont : Task → Cont} {ts : List Task} (W : PipeWaits i cont n ts) (hn : n ≤ 0)
    (ht : Takes i (cont t)) (hno : ¬ Gives i (cont t)) : PipeWaits i cont n (ts ++ [t]) := by
  refine ⟨fun u hu => ?_, W.waits.waitTake hn ?_⟩
  · rcases List.mem_append.1 hu with hu | hu
    · exact W.calls u hu
    · exact Or.inr (List.mem_singleton.1 hu ▸ ht)
  · rintro ⟨u, hu, h⟩
    rcases List.mem_append.1 hu with hu | hu
    · exact ⟨u, hu, h⟩
    · exact absurd (List.mem_singleton.1 hu ▸ h) hno

/-- A page goes into the ring or out of it, and all who wait are woken. -/
theorem Busy.movePage (B : Busy c s q) {p : Pipe} (h : Sched.wakeupIf (.pipe i) (s.setPipe i p) = some s')
    (hv : (s.pipes i).valid → p.valid) :
    ∃ q', Busy c s' q' ∧ q' (.pipe i) = [] ∧ s'.cont = s.cont ∧ s'.current = s.current ∧
      s'.pipes i = p := by
  have B1 := B.setPipe i hv
  obtain ⟨l, h1, h2⟩ := B1.mid.wakeupIf (h := .pipe i) (by simp)
  rw [h1] at h
  cases h
  exact ⟨_, B1.woken (fun _ hu => hu) h2, movedAll_self q (by simp) [] _, rfl, rfl,
    Function.update_self ..⟩

/-- The process joins the queue of a pipe. -/
theorem Busy.pipeBlock (B : Busy c s q) (ht : ∃ j, s.current c = .pcb j) (hv : (s.pipes i).valid) :
    Mid (some c) (Sched.pipeBlock (s.current c) i s) (push q (.pipe i) (s.current c)) :=
  B.mid.enqueueBlocked (h := .pipe i) rfl B.running ht ⟨by simp, by simp, fun e => by cases e; exact hv⟩

/-- How a part of a call of the process `t` on pipe `i` ends: it returns, or joins those who wait when
`blocks` holds of the number of pages. -/
def PipeEnd (i : ℕ) (t : Task) (blocks : ℤ → Prop) (s : Kernel) (q : Queues) : Out → Prop
  | .ret _ => PipeWaits i s.cont (s.pipes i).dataCount (q (.pipe i)) ∧ t ∉ q (.pipe i)
  | .sched _ => ∃ ts, q (.pipe i) = ts ++ [t] ∧ t ∉ ts ∧ PipeWaits i s.cont (s.pipes i).dataCount ts ∧
      blocks (s.pipes i).dataCount
  | .exit => False

/-- The state and the queues after a part of a call. -/
def PipePart (c i : ℕ) (blocks : ℤ → Prop) (s : Kernel) (o : Out) (s' : Kernel) : Prop :=
  ∃ q', Mid (some c) s' q' ∧ s'.cont = s.cont ∧ s'.current = s.current ∧
    PipeEnd i (s.current c) blocks s' q' o

theorem PipePart.of_round {blocks : ℤ → Prop} {o : Out} (h : PipePart c i blocks s1 o s')
    (hc : s1.cont = s.cont) (hcur : s1.current = s.current) : PipePart c i blocks s o s' := by
  obtain ⟨q', h1, h2, h3, h4⟩ := h
  rw [hcur] at h4
  exact ⟨q', h1, h2.trans hc, h3.trans hcur, h4⟩

theorem Busy.pipeRet (B : Busy c s q) (W : PipeWaits i s.cont (s.pipes i).dataCount (q (.pipe i)))
    (blocks : ℤ → Prop) (v : ℤ) : PipePart c i blocks s (.ret v) s := by
  have hr : (s.pcb (s.current c)).status = .running := B.running
  exact ⟨q, B.mid, rfl, rfl, W, B.mid.notMem (by simp [hr]) (by simp [hr]) _⟩

theorem Busy.pipeWait (B : Busy c s q) (ht : ∃ j, s.current c = .pcb j) (hv : (s.pipes i).valid)
    (W : PipeWaits i s.cont (s.pipes i).dataCount (q (.pipe i))) (blocks : ℤ → Prop)
    (hb : blocks (s.pipes i).dataCount) (point : Point) :
    PipePart c i blocks s (.sched point) (Sched.pipeBlock (s.current c) i s) := by
  have hr : (s.pcb (s.current c)).status = .running := B.running
  exact ⟨_, B.pipeBlock ht hv, rfl, rfl, q (.pipe i), push_self,
    B.mid.notMem (by simp [hr]) (by simp [hr]) _, W, hb⟩

/-- The loop of **sys_pipe_give_pages**. -/
theorem pipeGiveLoop_waits {src len : ℕ} {done : ℤ} {o : Out} (B : Busy c s q)
    (ht : ∃ j, s.current c = .pcb j) (hv : (s.pipes i).valid)
    (W : PipeWaits i s.cont (s.pipes i).dataCount (q (.pipe i)))
    (hs : pipeGiveLoop c i src len fuel done s = some (o, s')) :
    PipePart c i (pipeBufferSize ≤ ·) s o s' := by
  induction fuel generalizing done s q with
  | zero => cases hs
  | succ fuel ih =>
    rw [pipeGiveLoop] at hs
    split_ifs at hs with hlt hfull
    · cases hs
      exact B.pipeWait ht hv W _ hfull _
    · simp only [Option.bind_eq_bind, Option.bind_eq_some_iff] at hs
      obtain ⟨⟨pa, m⟩, -, hs⟩ := hs
      have B1 := B.setMemory m
      cases pa with
      | none =>
        cases hs
        exact (B1.pipeRet W _ _).of_round rfl rfl
      | some pa =>
        simp only [Option.bind_eq_some_iff] at hs
        obtain ⟨s3, h3, hs⟩ := hs
        obtain ⟨q3, B3, hq, hc, hcur, hp⟩ := B1.movePage h3 (fun h => h)
        refine (ih B3 (by rw [hcur]; exact ht) (by rw [hp]; exact hv) ?_ hs).of_round hc hcur
        rw [hq, hp]
        have hfull : (s.pipes i).dataCount < pipeBufferSize := not_le.1 hfull
        exact pipeWaits_woken _ ((W.waits.give (fun h => h) hfull (by norm_num) (by omega)).mono
          False.elim False.elim)
    · cases hs
      exact B.pipeRet W _ _

/-- The loop of **sys_pipe_take_pages**. -/
theorem pipeTakeLoop_waits {dst len : ℕ} {done : ℤ} {o : Out} (B : Busy c s q)
    (ht : ∃ j, s.current c = .pcb j) (hv : (s.pipes i).valid)
    (W : PipeWaits i s.cont (s.pipes i).dataCount (q (.pipe i)))
    (hs : pipeTakeLoop c i dst len fuel done s = some (o, s')) (hr : SwapRoom s'.memory) :
    PipePart c i (· ≤ 0) s o s' := by
  induction fuel generalizing done s q with
  | zero => cases hs
  | succ fuel ih =>
    rw [pipeTakeLoop] at hs
    split_ifs at hs with hlt hempty
    · cases hs
      exact B.pipeWait ht hv W _ hempty.le _
    · simp only [Option.bind_eq_bind, Option.bind_eq_some_iff] at hs
      obtain ⟨⟨ok, m⟩, hadd, hs⟩ := hs
      cases ok with
      | false =>
        cases hs
        exact absurd hr (addToActiveList_full hadd)
      | true =>
        simp only [Bool.not_true, Bool.false_eq_true, if_false, Option.bind_eq_some_iff] at hs
        obtain ⟨s3, h3, hs⟩ := hs
        obtain ⟨q3, B3, hq, hc, hcur, hp⟩ := (B.setMemory m).movePage h3 (fun h => h)
        refine (ih B3 (by rw [hcur]; exact ht) (by rw [hp]; exact hv) ?_ hs).of_round hc hcur
        rw [hq, hp]
        have hpos : 0 < (s.pipes i).dataCount := lt_of_le_of_ne W.waits.nonneg (Ne.symm hempty)
        exact pipeWaits_woken _ ((W.waits.take (fun h => h) hpos (by norm_num) (by omega)).mono
          False.elim False.elim)
    · cases hs
      exact B.pipeRet W _ _

/-- Pipe `i` is in order if it is in use. -/
def PipeOk (i : ℕ) (s : Kernel) (q : Queues) : Prop :=
  (s.pipes i).valid → PipeWaits i s.cont (s.pipes i).dataCount (q (.pipe i))

/-- Pipe `i` is in order after the first part of a step. -/
def PipeAfter (i : ℕ) (r : Kernel ⊕ Kernel) : Prop :=
  ∃ q1, Rings (r.elim id id).links q1 ∧ PipeOk i (r.elim id id) q1

/-- The process returns. -/
theorem PipeOk.ret (W : PipeOk i s q) (hr : Rings s.links q) (hn : s.current c ∉ q (.pipe i)) (v : ℤ) :
    PipeAfter i (.inl (leave c (s.addLog (.ret (s.current c) call v)))) := by
  refine ⟨q, hr, fun hv => (W hv).congr fun t ht => Function.update_of_ne ?_ ..⟩
  rintro rfl
  exact hn ht

/-- A part of a call returns or has the process wait. -/
theorem PipePart.after {blocks : ℤ → Prop} {o : Out} (h : PipePart c i blocks s o s1)
    (hw : ∀ point ts, PipeWaits i (Function.update s.cont (s.current c) (.inCall call point))
      (s1.pipes i).dataCount ts → blocks (s1.pipes i).dataCount →
      PipeWaits i (Function.update s.cont (s.current c) (.inCall call point)) (s1.pipes i).dataCount
        (ts ++ [s.current c]))
    (hs : following c call (o, s1) = some r) : PipeAfter i r := by
  obtain ⟨q1, M, hc, hcur, hend⟩ := h
  cases o with
  | ret v =>
    cases hs
    refine PipeOk.ret (fun _ => hend.1) M.rings ?_ v
    rw [hcur]
    exact hend.2
  | sched point =>
    cases hs
    obtain ⟨ts, hq, hn, W, hb⟩ := hend
    refine ⟨q1, M.rings, fun _ => ?_⟩
    show PipeWaits i (Function.update s1.cont (s1.current c) (.inCall call point)) (s1.pipes i).dataCount
      (q1 (.pipe i))
    rw [hq, hc, hcur]
    refine hw point ts (W.congr fun t ht => ?_) hb
    rw [hc]
    refine Function.update_of_ne ?_ ..
    rintro rfl
    exact hn ht
  | exit => exact hend.elim

theorem PipePart.after_give {src len : ℕ} {o : Out} (h : PipePart c i (pipeBufferSize ≤ ·) s o s1)
    (hs : following c (.pipeGive i src len) (o, s1) = some r) : PipeAfter i r := by
  refine h.after (fun point ts W hb => W.waitGive hb ?_ ?_) hs
  · exact ⟨src, len, point, Function.update_self ..⟩
  · rintro ⟨d, l, p, h⟩
    rw [Function.update_self] at h
    cases h

theorem PipePart.after_take {dst len : ℕ} {o : Out} (h : PipePart c i (· ≤ 0) s o s1)
    (hs : following c (.pipeTake i dst len) (o, s1) = some r) : PipeAfter i r := by
  refine h.after (fun point ts W hb => W.waitTake hb ?_ ?_) hs
  · exact ⟨dst, len, point, Function.update_self ..⟩
  · rintro ⟨d, l, p, h⟩
    rw [Function.update_self] at h
    cases h

/-- A call about the pipe. -/
theorem Call.aboutPipe (h : call.about (.pipe i)) : (∃ name, call = .pipeOpen name) ∨
    (∃ src len, call = .pipeGive i src len) ∨ ∃ dst len, call = .pipeTake i dst len := by
  cases call with
  | pipeOpen name => exact Or.inl ⟨name, rfl⟩
  | pipeGive idx src len =>
    obtain ⟨j, rfl, hj⟩ := h.resolve_left (by simp)
    cases hj
    exact Or.inr (Or.inl ⟨src, len, rfl⟩)
  | pipeTake idx dst len =>
    obtain ⟨j, rfl, hj⟩ := h.resolve_left (by simp)
    cases hj
    exact Or.inr (Or.inr ⟨dst, len, rfl⟩)
  | _ => simp [Call.about, At] at h

theorem enter_pipe (H : Good none s q) (A : Alive s) (hm : call.madeBy (s.current c)) (W : PipeOk i s q)
    (hb : call.about (.pipe i)) (hr : ∀ x ∈ syscall c e (entered c call s) call, SwapRoom x.2.memory)
    (hs : (syscall c e (entered c call s) call).bind (following c call) = some r) : PipeAfter i r := by
  have H0 : Good none (entered c call s) q := H.enter
  have B0 : Busy c (entered c call s) q := H0.busy (A.cur H c)
  have W0 : PipeOk i (entered c call s) q := W
  have hn : (entered c call s).current c ∉ q (.pipe i) := H.notMem c _
  obtain ⟨⟨o, s1⟩, h1, h2⟩ := Option.bind_eq_some_iff.1 hs
  have hroom : SwapRoom s1.memory := hr _ h1
  rcases Call.aboutPipe hb with ⟨name, rfl⟩ | ⟨src, len, rfl⟩ | ⟨dst, len, rfl⟩
  · obtain ⟨⟨v, s2⟩, h3, h4⟩ := Option.map_eq_some_iff.1 h1
    cases h4
    cases h2
    rcases sysPipeOpen_cases B0.mid h3 with h | ⟨k, p, hv, hp, hd, h⟩
    · have h : s2 = entered c (.pipeOpen name) s := h
      subst h
      exact W0.ret B0.mid.rings hn v
    · have h : s2 = (entered c (.pipeOpen name) s).setPipe k p := h
      subst h
      refine PipeOk.ret (s := (entered c (.pipeOpen name) s).setPipe k p) ?_ B0.mid.rings hn v
      by_cases e : i = k
      · subst e
        intro _
        have hi : ((entered c (.pipeOpen name) s).setPipe i p).pipes i = p := Function.update_self ..
        rw [hi, hd, B0.mid.pipe hv]
        exact pipeWaits_woken _ (noneLost_reset (by norm_num))
      · have hi : ((entered c (.pipeOpen name) s).setPipe k p).pipes i = s.pipes i :=
          Function.update_of_ne e ..
        unfold PipeOk
        rw [hi]
        exact W
  · have h1 : sysPipeGivePages c i src len (entered c (.pipeGive i src len) s) = some (o, s1) := h1
    rw [sysPipeGivePages] at h1
    split_ifs at h1 with ha
    · cases h1
      cases h2
      exact W0.ret B0.mid.rings hn _
    · obtain ⟨-, hv⟩ := pipeArgsOk_valid (by simpa using ha)
      have ht := Call.madeBy_pcb hm (by simp) (by simp)
      exact (pipeGiveLoop_waits B0 ht hv (W0 hv) h1).after_give h2
  · have h1 : sysPipeTakePages c i dst len (entered c (.pipeTake i dst len) s) = some (o, s1) := h1
    rw [sysPipeTakePages] at h1
    split_ifs at h1 with ha
    · cases h1
      cases h2
      exact W0.ret B0.mid.rings hn _
    · obtain ⟨-, hv⟩ := pipeArgsOk_valid (by simpa using ha)
      have ht := Call.madeBy_pcb hm (by simp) (by simp)
      exact (pipeTakeLoop_waits B0 ht hv (W0 hv) h1 hroom).after_take h2

theorem go_pipe (H : Good none s q) (A : Alive s) (hc : s.cont (s.current c) = .inCall call point)
    (W : PipeOk i s q) (hb : call.about (.pipe i))
    (hr : ∀ x ∈ resume c e s call point, SwapRoom x.2.memory)
    (hs : (resume c e s call point).bind (following c call) = some r) : PipeAfter i r := by
  obtain ⟨hm, hf⟩ := H.cont _ _ _ hc
  have B : Busy c s q := H.busy (A.cur H c)
  obtain ⟨⟨o, s1⟩, h1, h2⟩ := Option.bind_eq_some_iff.1 hs
  have hroom : SwapRoom s1.memory := hr _ h1
  by_cases hv : ∃ v, point = .ret v
  · obtain ⟨v, rfl⟩ := hv
    cases h1
    cases h2
    exact W.ret B.mid.rings (H.notMem c _) v
  rcases Call.aboutPipe hb with ⟨name, rfl⟩ | ⟨src, len, rfl⟩ | ⟨dst, len, rfl⟩
  · cases point <;> simp_all [Fits]
  · have ht := Call.madeBy_pcb hm (by simp) (by simp)
    cases point with
    | give done => exact (pipeGiveLoop_waits B ht hf.2 (W hf.2) h1).after_give h2
    | ret v => exact absurd ⟨v, rfl⟩ hv
    | _ => exact hf.elim
  · have ht := Call.madeBy_pcb hm (by simp) (by simp)
    cases point with
    | take done => exact (pipeTakeLoop_waits B ht hf.2 (W hf.2) h1 hroom).after_take h2
    | ret v => exact absurd ⟨v, rfl⟩ hv
    | _ => exact hf.elim

/-- **A step keeps those who wait for a pipe in order.** -/
theorem segment_pipe (H : Good none s q) (A : Alive s) (he : Enabled s a) (hx : SwapFree s a)
    (W : PipeOk i s q) (hs : segment s a = some r) : PipeAfter i r := by
  by_cases hb : ∃ call, a.callOf s = some call ∧ call.about (.pipe i)
  · obtain ⟨call, hcall, hb⟩ := hb
    obtain ⟨c, env, move⟩ := a
    cases move with
    | enter _ =>
      cases hcall
      exact enter_pipe H A he.2.2 W hb hx.2 (segment_enter H A hs)
    | go =>
      cases hc : s.cont (s.current c) with
      | inCall _ point =>
        have hr := hx.2
        simp only [Act.part, hc] at hr
        simp only [Act.callOf, hc] at hcall
        cases hcall
        exact go_pipe H A hc W hb hr (segment_go H A hc hs)
      | _ => simp [Act.callOf, hc] at hcall
  · have hn : ∀ call, a.callOf s = some call → ¬ call.about (.pipe i) := fun call h h' => hb ⟨call, h, h'⟩
    obtain ⟨q1, hr, hap⟩ := segment_apart H A he hx.1.2 hn (by simp [Call.about]) hs
    refine ⟨q1, hr, fun hv => ?_⟩
    rw [hap.pipe i rfl] at hv ⊢
    rw [hap.queue (.pipe i) rfl (by simp)]
    refine (W hv).congr fun t ht => hap.cont t ?_ ?_
    · rintro rfl
      exact H.notMem a.cpu _ ht
    · rw [H.mid.blocked.1 ⟨.pipe i, by simp, ht⟩]
      simp

/-! ## Runs -/

/-- All mailboxes and pipes are in order. -/
structure WaitsInv (s : Kernel) (q : Queues) : Prop where
  mbox : ∀ i < mboxNum, MboxWaits i s q
  pipe : ∀ i, PipeOk i s q

/-- Nobody waits for a mailbox or a pipe without a reason. -/
structure WaitsOk (s : Kernel) (q : Queues) : Prop where
  queues : QueuesAgree s q
  sender : ∀ i < mboxNum, q (.send i) ≠ [] →
    i32 ((s.mailboxes i).nwrite - (s.mailboxes i).nread) = maxMboxLength
  receiver : ∀ i < mboxNum, q (.recv i) ≠ [] → (s.mailboxes i).nwrite = (s.mailboxes i).nread
  call : ∀ i, ∀ t ∈ q (.pipe i), Gives i (s.cont t) ∨ Takes i (s.cont t)
  giver : ∀ i, ∀ t ∈ q (.pipe i), Gives i (s.cont t) → (s.pipes i).dataCount = pipeBufferSize
  taker : ∀ i, ∀ t ∈ q (.pipe i), Takes i (s.cont t) → (s.pipes i).dataCount = 0

theorem MboxWaits.empty (W : MboxWaits i s q) (h : q (.recv i) ≠ []) :
    (s.mailboxes i).nwrite = (s.mailboxes i).nread := by
  have h0 : i32 ((s.mailboxes i).nwrite - (s.mailboxes i).nread) = 0 := W.waits.empty h
  have hw := W.nwrite
  have hr := W.nread
  unfold i32 at h0 hw hr
  rw [Int.bmod_def] at h0 hw hr
  norm_num at h0 hw hr
  omega

theorem WaitsInv.ok (W : WaitsInv s q) (M : Mid none s q) : WaitsOk s q := by
  have hv : ∀ i, ∀ t ∈ q (.pipe i), PipeWaits i s.cont (s.pipes i).dataCount (q (.pipe i)) := by
    intro i t ht
    refine W.pipe i ?_
    by_contra hv
    rw [M.pipe (by simpa using hv)] at ht
    cases ht
  exact
    { queues := M.queuesAgree
      sender := fun i hi => (W.mbox i hi).waits.full
      receiver := fun i hi => (W.mbox i hi).empty
      call := fun i t ht => (hv i t ht).calls t ht
      giver := fun i t ht h => (hv i t ht).waits.full ⟨t, ht, h⟩
      taker := fun i t ht h => (hv i t ht).waits.empty ⟨t, ht, h⟩ }

theorem segment_waits (H : Good none s q) (A : Alive s) (W : WaitsInv s q) (he : Enabled s a)
    (hx : SwapFree s a) (hs : segment s a = some r) :
    ∃ q1, Rings (r.elim id id).links q1 ∧ WaitsInv (r.elim id id) q1 := by
  obtain ⟨q1, hr, -⟩ := segment_pipe H A he hx (W.pipe 0) hs
  refine ⟨q1, hr, fun i hi => ?_, fun i => ?_⟩
  · obtain ⟨q2, hr2, h⟩ := segment_mbox H A he hx hi (W.mbox i hi) hs
    rwa [hr.unique hr2]
  · obtain ⟨q2, hr2, h⟩ := segment_pipe H A he hx (W.pipe i) hs
    rwa [hr.unique hr2]

theorem WaitsInv.switch (W : WaitsInv s1 q1) (S : Switched c s1 s2 q1 q2) : WaitsInv s2 q2 := by
  refine ⟨fun i hi => ?_, fun i => ?_⟩
  · exact (W.mbox i hi).congr (by rw [S.mailboxes]) (by rw [S.mailboxes])
      (S.queue _ (by simp) (by simp)) (S.queue _ (by simp) (by simp))
  · have h := W.pipe i
    unfold PipeOk at h ⊢
    rwa [S.pipes, S.cont, S.queue (.pipe i) (by simp) (by simp)]

theorem Start.waitsInv (h0 : Start s) : WaitsInv s fun _ => [] := by
  refine ⟨fun i _ => ?_, fun i hv => ?_⟩
  · obtain ⟨-, -, -, hd, hw⟩ := h0.mailboxes i
    refine ⟨by rw [hw]; rfl, by rw [hd]; rfl, ?_⟩
    have hu : ringUsed (s.mailboxes i) = 0 := by rw [ringUsed, hw, hd]; rfl
    rw [hu]
    exact (noneLost_reset (by norm_num)).mono (absurd rfl) (absurd rfl)
  · rw [h0.pipes i] at hv
    cases hv

end RiscvKernel.Sched
