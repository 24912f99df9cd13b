import RiscvKernel.Sched.Steps

/-!
# The spin locks of the objects

The calls on mutexes, condition variables, barriers and mailboxes take the spin lock of their object first.
This module is about any state, the queues need not be in order: a part of a call that comes to its end has
released what it took, unless it has released a mutex of another process, where
`do_mutex_lock_release` forgets the spin lock.
-/

namespace RiscvKernel.Sched

open Lib Mm

variable {c i : ℕ} {s s' s1 s2 : Kernel} {t : Task} {h : Head} {o : Out} {call : Call} {e : Env}
  {x : Obj} {k : Option Obj}

/-- The spin lock of an object. -/
def spin : Obj → Kernel → LockStatus
  | .mutex i, s => (s.mlocks i).lock
  | .cond i, s => (s.conditions i).lock
  | .barrier i, s => (s.barriers i).lock
  | .mbox i, s => (s.mailboxes i).lock
  | _, _ => .unlocked

/-- A spin lock that is free is free again afterwards. -/
def KeepsFree (s s' : Kernel) : Prop := ∀ x, spin x s = .unlocked → spin x s' = .unlocked

/-- All spin locks but that of `k` are the same. -/
def SameSpin (k : Option Obj) (s s' : Kernel) : Prop := ∀ x, some x ≠ k → spin x s' = spin x s

theorem SameSpin.refl : SameSpin k s s := fun _ _ => rfl

theorem SameSpin.trans (h1 : SameSpin k s s1) (h2 : SameSpin k s1 s2) : SameSpin k s s2 :=
  fun x hx => (h2 x hx).trans (h1 x hx)

theorem SameSpin.of_none (h1 : SameSpin none s s') : SameSpin k s s' := fun x _ => h1 x (by simp)

theorem SameSpin.spin_eq (h1 : SameSpin none s s') (x : Obj) : spin x s' = spin x s := h1 x (by simp)

theorem SameSpin.keepsFree (h1 : SameSpin none s s') : KeepsFree s s' :=
  fun x hx => (h1.spin_eq x).trans hx

/-- The lock of `x` has been released. -/
theorem SameSpin.released (h1 : SameSpin (some x) s s') (hx : spin x s' = .unlocked) : KeepsFree s s' := by
  intro y hy
  by_cases he : y = x
  · rw [he]
    exact hx
  · rw [h1 y (by simpa using he)]
    exact hy

theorem KeepsFree.trans (h1 : KeepsFree s s1) (h2 : KeepsFree s1 s2) : KeepsFree s s2 :=
  fun x hx => h2 x (h1 x hx)

/-! ## What leaves the spin locks alone -/

theorem spin_setMutex (m : MutexLock) :
    spin x (s.setMutex i m) = if x = .mutex i then m.lock else spin x s := by
  cases x with
  | mutex j =>
    simp only [spin, Kernel.setMutex, Function.update_apply, Obj.mutex.injEq]
    split_ifs <;> rfl
  | _ => rfl

theorem spin_setCondition (y : Condition) :
    spin x (s.setCondition i y) = if x = .cond i then y.lock else spin x s := by
  cases x with
  | cond j =>
    simp only [spin, Kernel.setCondition, Function.update_apply, Obj.cond.injEq]
    split_ifs <;> rfl
  | _ => rfl

theorem spin_setBarrier (b : Barrier) :
    spin x (s.setBarrier i b) = if x = .barrier i then b.lock else spin x s := by
  cases x with
  | barrier j =>
    simp only [spin, Kernel.setBarrier, Function.update_apply, Obj.barrier.injEq]
    split_ifs <;> rfl
  | _ => rfl

theorem spin_setMailbox (m : Mailbox) :
    spin x (s.setMailbox i m) = if x = .mbox i then m.lock else spin x s := by
  cases x with
  | mbox j =>
    simp only [spin, Kernel.setMailbox, Function.update_apply, Obj.mbox.injEq]
    split_ifs <;> rfl
  | _ => rfl

theorem SameSpin.of_eq (h1 : s'.mlocks = s.mlocks) (h2 : s'.conditions = s.conditions)
    (h3 : s'.barriers = s.barriers) (h4 : s'.mailboxes = s.mailboxes) : SameSpin k s s' := by
  intro x _
  cases x <;> simp only [spin, h1, h2, h3, h4]

theorem doBlock_same : SameSpin none s (doBlock t h s) := by
  unfold doBlock
  split_ifs
  · exact .refl
  · exact .of_eq rfl rfl rfl rfl

theorem doUnblock_same : SameSpin none s (doUnblock t s) := .of_eq rfl rfl rfl rfl

theorem dequeue_same (hd : dequeue h s = some (t, s')) : SameSpin none s s' := by
  obtain ⟨l, rfl⟩ := dequeue_eq_some hd
  exact .of_eq rfl rfl rfl rfl

theorem wakeupFrom_same (fuel : ℕ) (n : Node) (s : Kernel) (hs : wakeupFrom h fuel n s = some s') :
    SameSpin none s s' := by
  induction fuel generalizing n s with
  | zero => cases hs
  | succ fuel ih =>
    cases n with
    | inl t => exact doUnblock_same.trans (ih _ _ hs)
    | inr g =>
      rw [wakeupFrom] at hs
      split_ifs at hs
      cases hs
      exact .refl

theorem wakeup_same (hs : wakeup h s = some s') : SameSpin none s s' := wakeupFrom_same _ _ s hs

/-! ## Mutexes -/

theorem keepsFree_setMutex {m : MutexLock} (hm : m.lock = .unlocked) : KeepsFree s (s.setMutex i m) := by
  intro x hx
  rw [spin_setMutex]
  split_ifs
  · exact hm
  · exact hx

theorem acquire_keepsFree {idx : ℤ} (hs : doMutexLockAcquire c idx s = some (o, s')) :
    KeepsFree s s' := by
  rcases index_cases idx lockNum with hi | ⟨i, hi, rfl⟩
  · rw [doMutexLockAcquire, if_pos hi] at hs
    cases hs
    exact SameSpin.refl.keepsFree
  cases hl : (s.mlocks i).lock with
  | locked => rw [doMutexLockAcquire_spin hi hl] at hs; cases hs
  | unlocked =>
    cases hst : (s.mlocks i).status with
    | unlocked =>
      rw [doMutexLockAcquire_free hi hl hst] at hs
      cases hs
      exact keepsFree_setMutex hl
    | locked =>
      rw [doMutexLockAcquire_held hi hl hst] at hs
      cases hs
      exact doBlock_same.keepsFree

/-- The process may release the mutex: it is the owner, or the index is not that of a mutex. -/
def Owns (c : ℕ) (idx : ℤ) (s : Kernel) : Prop :=
  0 ≤ idx → idx < lockNum → (s.cur c).pid = (s.mlocks idx.toNat).pid

instance (c : ℕ) (idx : ℤ) (s : Kernel) : Decidable (Owns c idx s) :=
  inferInstanceAs (Decidable (_ → _ → _))

/-- **do_mutex_lock_release** keeps its spin lock just when the process is not the owner. -/
theorem release_keepsFree {idx : ℤ} (hs : doMutexLockRelease c idx s = some s') :
    KeepsFree s s' ↔ Owns c idx s := by
  rcases index_cases idx lockNum with hi | ⟨i, hi, rfl⟩
  · rw [doMutexLockRelease, if_pos hi] at hs
    cases hs
    exact iff_of_true SameSpin.refl.keepsFree fun h1 h2 => by omega
  cases hl : (s.mlocks i).lock with
  | locked => rw [doMutexLockRelease_spin hi hl] at hs; cases hs
  | unlocked =>
    have ho : Owns c i s ↔ (s.cur c).pid = (s.mlocks i).pid := by
      unfold Owns
      simp [hi]
    rw [ho]
    rw [doMutexLockRelease_eq hi hl] at hs
    split_ifs at hs with hp he
    · cases hs
      refine iff_of_false (fun H => ?_) hp
      have := H (.mutex i) hl
      rw [spin_setMutex, if_pos rfl] at this
      cases this
    · cases hs
      exact iff_of_true (keepsFree_setMutex rfl) (not_not.1 hp)
    · obtain ⟨⟨t, s1⟩, hd, rfl⟩ := Option.map_eq_some_iff.1 hs
      have h1 : SameSpin none s (doUnblock t s1) := (dequeue_same hd).trans doUnblock_same
      exact iff_of_true (h1.keepsFree.trans (keepsFree_setMutex hl)) (not_not.1 hp)

/-! ## Condition variables -/

/-- **do_condition_wait** by a process that does not own the mutex. -/
theorem wait_keepsFree {cond mutex : ℤ} (hs : doConditionWait c cond mutex s = some (o, s')) :
    KeepsFree s s' ↔ (0 ≤ cond → cond < conditionNum → Owns c mutex s) := by
  rcases index_cases cond conditionNum with hi | ⟨i, hi, rfl⟩
  · rw [doConditionWait, if_pos hi] at hs
    cases hs
    exact iff_of_true SameSpin.refl.keepsFree fun h1 h2 => by omega
  have hc : ((0 : ℤ) ≤ i → (i : ℤ) < conditionNum → Owns c mutex s) ↔ Owns c mutex s := by
    simp [hi]
  rw [hc]
  by_cases hm : mutex < 0 ∨ (lockNum : ℤ) ≤ mutex
  · rw [doConditionWait, if_neg (index_in hi), if_pos hm] at hs
    cases hs
    exact iff_of_true SameSpin.refl.keepsFree fun h1 h2 => by omega
  cases hl : (s.conditions i).lock with
  | locked => rw [doConditionWait_spin hi hm hl] at hs; cases hs
  | unlocked =>
    rw [doConditionWait_eq hi hm hl] at hs
    obtain ⟨s1, h1, he⟩ := Option.map_eq_some_iff.1 hs
    cases he
    have hb : ∀ x, spin x (doBlock (s.current c) (.cond i) s) = spin x s := doBlock_same.spin_eq
    have ho : Owns c mutex (doBlock (s.current c) (.cond i) s) ↔ Owns c mutex s := by
      unfold doBlock
      split_ifs
      · rfl
      · simp [Owns, Kernel.cur, enqueue, Kernel.setStatus, setPcb_apply]
    rw [← ho, ← release_keepsFree h1]
    unfold KeepsFree
    simp only [hb]

theorem acquireConditionSpin_eq (hs : acquireConditionSpin i s = some s') :
    SameSpin (some (.cond i)) s s' := by
  unfold acquireConditionSpin at hs
  split_ifs at hs
  cases hs
  intro x hx
  rw [spin_setCondition, if_neg (by simpa using hx)]

theorem releaseConditionSpin_keepsFree (h1 : SameSpin (some (.cond i)) s s') :
    KeepsFree s (releaseConditionSpin i s') := by
  refine SameSpin.released (x := .cond i) (fun x hx => ?_) ?_
  · rw [releaseConditionSpin, spin_setCondition, if_neg (by simpa using hx), h1 x hx]
  · rw [releaseConditionSpin, spin_setCondition, if_pos rfl]

theorem signal_keepsFree {idx : ℤ} (hs : doConditionSignal idx s = some s') : KeepsFree s s' := by
  rw [doConditionSignal] at hs
  split_ifs at hs
  · cases hs
    exact SameSpin.refl.keepsFree
  obtain ⟨s1, h1, hs⟩ := Option.bind_eq_some_iff.1 hs
  have H1 := acquireConditionSpin_eq h1
  split_ifs at hs
  · obtain ⟨⟨t, s2⟩, h2, hs⟩ := Option.bind_eq_some_iff.1 hs
    cases hs
    exact releaseConditionSpin_keepsFree (H1.trans ((dequeue_same h2).trans doUnblock_same).of_none)
  · cases hs
    exact releaseConditionSpin_keepsFree H1

theorem broadcast_keepsFree {idx : ℤ} (hs : doConditionBroadcast idx s = some s') : KeepsFree s s' := by
  rw [doConditionBroadcast] at hs
  split_ifs at hs
  · cases hs
    exact SameSpin.refl.keepsFree
  obtain ⟨s1, h1, hs⟩ := Option.bind_eq_some_iff.1 hs
  obtain ⟨s2, h2, hs⟩ := Option.bind_eq_some_iff.1 hs
  cases hs
  exact releaseConditionSpin_keepsFree ((acquireConditionSpin_eq h1).trans (wakeup_same h2).of_none)

/-! ## Barriers -/

theorem setBarrier_same (b : Barrier) : SameSpin (some (.barrier i)) s (s.setBarrier i b) := by
  intro x hx
  rw [spin_setBarrier, if_neg (by simpa using hx)]

theorem acquireBarrierSpin_eq (hs : acquireBarrierSpin i s = some s') :
    SameSpin (some (.barrier i)) s s' := by
  unfold acquireBarrierSpin at hs
  split_ifs at hs
  cases hs
  exact setBarrier_same _

theorem releaseBarrierSpin_keepsFree (h1 : SameSpin (some (.barrier i)) s s') :
    KeepsFree s (releaseBarrierSpin i s') := by
  refine SameSpin.released (h1.trans (setBarrier_same _)) ?_
  rw [releaseBarrierSpin, spin_setBarrier, if_pos rfl]

theorem barrierWait_keepsFree {idx : ℤ} (hs : doBarrierWait c idx s = some (o, s')) : KeepsFree s s' := by
  rw [doBarrierWait] at hs
  split_ifs at hs
  · cases hs
    exact SameSpin.refl.keepsFree
  obtain ⟨s1, h1, hs⟩ := Option.bind_eq_some_iff.1 hs
  have H1 := (acquireBarrierSpin_eq h1).trans (setBarrier_same (i := idx.toNat)
    { s1.barriers idx.toNat with arrived := (s1.barriers idx.toNat).arrived + 1 })
  dsimp only at hs
  split_ifs at hs
  · obtain ⟨s2, h2, hs⟩ := Option.bind_eq_some_iff.1 hs
    cases hs
    exact releaseBarrierSpin_keepsFree ((H1.trans (setBarrier_same _)).trans (wakeup_same h2).of_none)
  · cases hs
    exact releaseBarrierSpin_keepsFree (H1.trans doBlock_same.of_none)

/-! ## Mailboxes -/

theorem setMailbox_same (m : Mailbox) : SameSpin (some (.mbox i)) s (s.setMailbox i m) := by
  intro x hx
  rw [spin_setMailbox, if_neg (by simpa using hx)]

theorem releaseMailboxSpin_spin (h1 : SameSpin (some (.mbox i)) s s') :
    KeepsFree s (releaseMailboxSpin i s') := by
  refine SameSpin.released (h1.trans (setMailbox_same _)) ?_
  rw [releaseMailboxSpin, spin_setMailbox, if_pos rfl]

theorem putBytes_lock {bs : List Byte} {m m' : Mailbox} (hs : putBytes bs m = some m') :
    m'.lock = m.lock := by
  induction bs generalizing m with
  | nil => cases hs; rfl
  | cons b bs ih =>
    obtain ⟨m1, h1, h2⟩ := Option.bind_eq_some_iff.1 hs
    obtain ⟨j, -, rfl⟩ := Option.map_eq_some_iff.1 h1
    exact (ih h2).trans rfl

theorem getBytes_lock {n : ℕ} {m : Mailbox} {r : List Byte × Mailbox} (hs : getBytes n m = some r) :
    r.2.lock = m.lock := by
  induction n generalizing m r with
  | zero => cases hs; rfl
  | succ n ih =>
    obtain ⟨⟨b, m1⟩, h1, hs⟩ := Option.bind_eq_some_iff.1 hs
    obtain ⟨⟨bs, m2⟩, h2, hs⟩ := Option.bind_eq_some_iff.1 hs
    cases hs
    obtain ⟨j, -, h1⟩ := Option.map_eq_some_iff.1 h1
    cases h1
    exact (ih h2).trans rfl

/-- A call on mailbox `i` that has taken the spin lock gives it back, but not before it runs `do_exit`. -/
def MboxEnds (i : ℕ) (s : Kernel) (o : Out) (s' : Kernel) : Prop :=
  (o = .exit ∧ spin (.mbox i) s' = .locked) ∨ (o ≠ .exit ∧ KeepsFree s s')

theorem pinNextIf_same {b : Bool} {pin : Pin} {r : Bool × Pin × Kernel}
    (hs : pinNextIf c b pin s = some r) : SameSpin none s r.2.2 := by
  obtain ⟨m, h1⟩ := pinNextIf_eq hs
  rw [h1]
  exact .of_eq rfl rfl rfl rfl

/-- The loop of **do_mbox_send**. -/
theorem mboxSendLoop_ends {length : ℤ} {data : ℕ → Byte} (fuel : ℕ) (sent : ℤ) (pin : Pin) (s1 : Kernel)
    (h1 : SameSpin (some (.mbox i)) s s1) (hi : spin (.mbox i) s1 = .locked)
    (hs : mboxSendLoop c i length data fuel sent pin s1 = some (o, s')) : MboxEnds i s o s' := by
  induction fuel generalizing sent pin s1 with
  | zero => cases hs
  | succ fuel ih =>
    rw [mboxSendLoop] at hs
    split_ifs at hs with hlt
    · dsimp only at hs
      split_ifs at hs with hroom
      · simp only [Option.bind_eq_bind, Option.bind_eq_some_iff] at hs
        generalize List.map _ _ = bytes at hs
        obtain ⟨m, hm, ⟨ok, pin', s2⟩, h2, hs⟩ := hs
        have hput : SameSpin (some (.mbox i)) s1 ((s1.setMailbox i m).addLog (.put i (s1.current c) bytes)) :=
          (setMailbox_same m).trans (.of_eq rfl rfl rfl rfl)
        have hlock : spin (.mbox i) ((s1.setMailbox i m).addLog (.put i (s1.current c) bytes)) = .locked := by
          refine (spin_setMailbox (s := s1) m).trans ((if_pos rfl).trans ?_)
          rw [putBytes_lock hm]
          exact hi
        have hpin : SameSpin none _ s2 := pinNextIf_same h2
        have hlock2 := (hpin.spin_eq (.mbox i)).trans hlock
        cases ok with
        | false =>
          cases hs
          exact Or.inl ⟨rfl, hlock2⟩
        | true =>
          simp only [Bool.not_true, Bool.false_eq_true, if_false] at hs
          obtain ⟨s3, h3, hs⟩ := Option.bind_eq_some_iff.1 hs
          have hw := wakeup_same h3
          exact ih _ _ s3 (h1.trans (hput.trans (hpin.trans hw).of_none))
            ((hw.spin_eq (.mbox i)).trans hlock2) hs
      · cases hs
        exact Or.inr ⟨by simp, releaseMailboxSpin_spin (h1.trans doBlock_same.of_none)⟩
    · cases hs
      exact Or.inr ⟨by simp, releaseMailboxSpin_spin h1⟩

/-- The loop of **do_mbox_recv**. -/
theorem mboxRecvLoop_ends {length : ℤ} (fuel : ℕ) (read : ℤ) (pin : Pin) (s1 : Kernel)
    (h1 : SameSpin (some (.mbox i)) s s1) (hi : spin (.mbox i) s1 = .locked)
    (hs : mboxRecvLoop c i length fuel read pin s1 = some (o, s')) : MboxEnds i s o s' := by
  induction fuel generalizing read pin s1 with
  | zero => cases hs
  | succ fuel ih =>
    rw [mboxRecvLoop] at hs
    split_ifs at hs with hlt
    · dsimp only at hs
      split_ifs at hs with hroom
      · simp only [Option.bind_eq_bind, Option.bind_eq_some_iff] at hs
        obtain ⟨⟨bytes, m⟩, hm, ⟨ok, pin', s2⟩, h2, hs⟩ := hs
        have hgot : SameSpin (some (.mbox i)) s1 ((s1.setMailbox i m).addLog (.got i (s1.current c) bytes)) :=
          (setMailbox_same m).trans (.of_eq rfl rfl rfl rfl)
        have hlock : spin (.mbox i) ((s1.setMailbox i m).addLog (.got i (s1.current c) bytes)) = .locked := by
          refine (spin_setMailbox (s := s1) m).trans ((if_pos rfl).trans ?_)
          exact (getBytes_lock hm).trans hi
        have hpin : SameSpin none _ s2 := pinNextIf_same h2
        have hlock2 := (hpin.spin_eq (.mbox i)).trans hlock
        cases ok with
        | false =>
          cases hs
          exact Or.inl ⟨rfl, hlock2⟩
        | true =>
          simp only [Bool.not_true, Bool.false_eq_true, if_false] at hs
          obtain ⟨s3, h3, hs⟩ := Option.bind_eq_some_iff.1 hs
          have hw := wakeup_same h3
          exact ih _ _ s3 (h1.trans (hgot.trans (hpin.trans hw).of_none))
            ((hw.spin_eq (.mbox i)).trans hlock2) hs
      · cases hs
        exact Or.inr ⟨by simp, releaseMailboxSpin_spin (h1.trans doBlock_same.of_none)⟩
    · cases hs
      exact Or.inr ⟨by simp, releaseMailboxSpin_spin h1⟩

/-- The state after `spin_lock_acquire(&mailbox->lock)`. -/
theorem acquireMailboxSpin_same (hs : acquireMailboxSpin i s = some s') :
    SameSpin (some (.mbox i)) s s' ∧ spin (.mbox i) s' = .locked := by
  obtain ⟨-, rfl⟩ := acquireMailboxSpin_eq hs
  exact ⟨setMailbox_same _, by rw [spin_setMailbox, if_pos rfl]⟩

theorem resumeSend_ends {idx length sent : ℤ} {data : ℕ → Byte} {pin : Pin}
    (h0 : SameSpin none s s1) (hs : resumeMboxSend c idx length data sent pin s1 = some (o, s')) :
    MboxEnds idx.toNat s o s' := by
  obtain ⟨s2, h2, hs⟩ := Option.bind_eq_some_iff.1 hs
  obtain ⟨h3, h4⟩ := acquireMailboxSpin_same h2
  exact mboxSendLoop_ends _ _ _ s2 (h0.of_none.trans h3) h4 hs

theorem resumeRecv_ends {idx length read : ℤ} {pin : Pin} (h0 : SameSpin none s s1)
    (hs : resumeMboxRecv c idx length read pin s1 = some (o, s')) : MboxEnds idx.toNat s o s' := by
  obtain ⟨s2, h2, hs⟩ := Option.bind_eq_some_iff.1 hs
  obtain ⟨h3, h4⟩ := acquireMailboxSpin_same h2
  exact mboxRecvLoop_ends _ _ _ s2 (h0.of_none.trans h3) h4 hs

theorem pinFirst_same {msg : ℕ} {r : Pin × Kernel} (hs : pinFirst c msg s = some r) :
    SameSpin none s r.2 := by
  obtain ⟨m, h1⟩ := pinFirst_eq hs
  rw [h1]
  exact .of_eq rfl rfl rfl rfl

theorem send_ends (idx : ℤ) {length : ℤ} {msg : ℕ} {data : ℕ → Byte}
    (hs : doMboxSend c idx msg length data s = some (o, s')) : MboxEnds idx.toNat s o s' ∧ (o = .exit → 0 ≤ idx ∧ idx < mboxNum) := by
  rw [doMboxSend] at hs
  split_ifs at hs with hi
  · cases hs
    exact ⟨Or.inr ⟨by simp, SameSpin.refl.keepsFree⟩, by simp⟩
  · cases hs
    exact ⟨Or.inr ⟨by simp, SameSpin.refl.keepsFree⟩, by simp⟩
  · obtain ⟨⟨pin, s1⟩, h1, hs⟩ := Option.bind_eq_some_iff.1 hs
    exact ⟨resumeSend_ends (pinFirst_same h1) hs, fun _ => by omega⟩

theorem recv_ends (idx : ℤ) {length : ℤ} {msg : ℕ} (hs : doMboxRecv c idx msg length s = some (o, s')) :
    MboxEnds idx.toNat s o s' ∧ (o = .exit → 0 ≤ idx ∧ idx < mboxNum) := by
  rw [doMboxRecv] at hs
  split_ifs at hs with hi
  · cases hs
    exact ⟨Or.inr ⟨by simp, SameSpin.refl.keepsFree⟩, by simp⟩
  · cases hs
    exact ⟨Or.inr ⟨by simp, SameSpin.refl.keepsFree⟩, by simp⟩
  · obtain ⟨⟨pin, s1⟩, h1, hs⟩ := Option.bind_eq_some_iff.1 hs
    exact ⟨resumeRecv_ends (pinFirst_same h1) hs, fun _ => by omega⟩

/-! ## Ending with a spin lock held -/

theorem release_mailboxes {idx : ℤ} (hs : doMutexLockRelease c idx s = some s') :
    s'.mailboxes = s.mailboxes := by
  rcases index_cases idx lockNum with hi | ⟨j, hj, rfl⟩
  · rw [doMutexLockRelease, if_pos hi] at hs
    cases hs
    rfl
  cases hl : (s.mlocks j).lock with
  | locked => rw [doMutexLockRelease_spin hj hl] at hs; cases hs
  | unlocked =>
    rw [doMutexLockRelease_eq hj hl] at hs
    split_ifs at hs
    · cases hs; rfl
    · cases hs; rfl
    · obtain ⟨⟨t, s1⟩, hd, rfl⟩ := Option.map_eq_some_iff.1 hs
      obtain ⟨l, rfl⟩ := dequeue_eq_some hd
      rfl

theorem freeLock_mailboxes {pid : ℤ} (hs : freeLock c pid s = some s') : s'.mailboxes = s.mailboxes := by
  refine loopM_inv (P := fun _ s' => s'.mailboxes = s.mailboxes) (fun j s1 s2 _ _ hj hf => ?_) rfl hs
  split_ifs at hf
  · exact (release_mailboxes hf).trans hj
  · cases hf
    exact hj

theorem kickBarrier_mailboxes (hs : kickBarrier c i s = some s') : s'.mailboxes = s.mailboxes := by
  unfold kickBarrier at hs
  split_ifs at hs
  · obtain ⟨b, -, rfl⟩ := Option.map_eq_some_iff.1 hs
    split_ifs <;> rfl
  · cases hs
    rfl

theorem freeBarrier_mailboxes (hs : freeBarrier c s = some s') : s'.mailboxes = s.mailboxes := by
  refine loopM_inv (P := fun _ s' => s'.mailboxes = s.mailboxes) (fun j s1 s2 _ _ hj hf => ?_) rfl hs
  obtain ⟨s3, h3, hf⟩ := Option.bind_eq_some_iff.1 hf
  obtain ⟨s4, h4, hf⟩ := Option.bind_eq_some_iff.1 hf
  cases hf
  unfold acquireBarrierSpin at h3
  split_ifs at h3
  cases h3
  exact (kickBarrier_mailboxes h4).trans hj

theorem kickMbox_same (hs : kickMbox c i s = some s') : SameSpin (some (.mbox i)) s s' := by
  unfold kickMbox at hs
  split_ifs at hs
  · obtain ⟨b1, -, hs⟩ := Option.bind_eq_some_iff.1 hs
    obtain ⟨b2, -, rfl⟩ := Option.map_eq_some_iff.1 hs
    split_ifs
    · exact doUnblock_same.of_none.trans (setMailbox_same _)
    · exact .refl
  · cases hs
    exact .refl

/-- `free_mbox` takes the spin locks of all mailboxes. -/
theorem freeMbox_locked (hi : i < mboxNum) (hl : spin (.mbox i) s = .locked) : freeMbox c s = none := by
  cases hs : freeMbox c s with
  | none => rfl
  | some s' =>
    have hI := loopM_inv (P := fun j s' => j ≤ i ∧ spin (.mbox i) s' = .locked)
      (fun j s1 s2 _ _ hj hf => ?_) ⟨Nat.zero_le i, hl⟩ hs
    · omega
    obtain ⟨s3, h3, hf⟩ := Option.bind_eq_some_iff.1 hf
    obtain ⟨s4, h4, hf⟩ := Option.bind_eq_some_iff.1 hf
    cases hf
    have hne : i ≠ j := by
      rintro rfl
      have hfree := (acquireMailboxSpin_eq h3).1
      rw [show (s1.mailboxes i).lock = .locked from hj.2] at hfree
      cases hfree
    have hx : some (Obj.mbox i) ≠ some (.mbox j) := by simpa using hne
    refine ⟨by omega, ?_⟩
    rw [releaseMailboxSpin, setMailbox_same _ _ hx, kickMbox_same h4 _ hx, (acquireMailboxSpin_same h3).1 _ hx]
    exact hj.2

/-- **do_exit** never comes to its end when the spin lock of a mailbox is held. -/
theorem ending_locked (hi : i < mboxNum) (hl : spin (.mbox i) s = .locked) : ending c s = none := by
  cases hs : ending c s with
  | none => rfl
  | some r =>
    obtain ⟨s1, h1, -⟩ := Option.map_eq_some_iff.1 hs
    rw [exitCurrent_eq] at h1
    obtain ⟨s2, h2, h1⟩ := Option.bind_eq_some_iff.1 h1
    obtain ⟨s3, h3, h1⟩ := Option.bind_eq_some_iff.1 h1
    obtain ⟨s4, h4, -⟩ := Option.bind_eq_some_iff.1 h1
    have hl3 : spin (.mbox i) s3 = .locked := by
      rw [spin, freeBarrier_mailboxes h3, freeLock_mailboxes h2]
      exact hl
    rw [freeMbox_locked hi hl3] at h4
    cases h4

/-! ## The calls -/

/-- The calls that take spin locks. -/
def Call.locking : Call → Bool
  | .mutexAcquire _ | .mutexRelease _ | .condWait _ _ | .condSignal _ | .condBroadcast _ | .barrierWait _
  | .mboxSend _ _ _ | .mboxRecv _ _ _ => true
  | _ => false

/-- The process owns the mutex that it gives up in the call. -/
def OwnerGives (c : ℕ) (s : Kernel) : Call → Prop
  | .mutexRelease idx => Owns c idx s
  | .condWait cond mutex => 0 ≤ cond → cond < conditionNum → Owns c mutex s
  | _ => True

/-- The part of a call from its start (`none`) or from a point at which it was switched away from, up to
its return or to the call of do_scheduler. -/
def callPart (c : ℕ) (e : Env) (call : Call) (p : Option Point) (s : Kernel) : Option (Kernel ⊕ Kernel) :=
  (match p with
    | none => syscall c e s call
    | some point => resume c e s call point).bind (following c call)

theorem following_spin {r : Kernel ⊕ Kernel} (ho : o ≠ .exit) (hs : following c call (o, s') = some r)
    (x : Obj) : spin x (r.elim id id) = spin x s' := by
  cases o with
  | ret v =>
    cases hs
    cases x <;> rfl
  | sched point =>
    cases hs
    cases x <;> rfl
  | exit => exact absurd rfl ho

/-- The end of a call that does not run do_exit. -/
theorem following_keepsFree {r : Kernel ⊕ Kernel} (ho : o ≠ .exit)
    (hs : following c call (o, s') = some r) : KeepsFree s (r.elim id id) ↔ KeepsFree s s' := by
  unfold KeepsFree
  simp only [following_spin ho hs]

/-- The end of a call on a mailbox. -/
theorem MboxEnds.keepsFree {idx : ℤ} {r : Kernel ⊕ Kernel} (H : MboxEnds idx.toNat s o s')
    (hi : o = .exit → 0 ≤ idx ∧ idx < mboxNum) (hs : following c call (o, s') = some r) :
    KeepsFree s (r.elim id id) := by
  rcases H with ⟨rfl, hl⟩ | ⟨ho, hk⟩
  · have hs : ending c s' = some r := hs
    obtain ⟨h0, h1⟩ := hi rfl
    rw [ending_locked (by omega) hl] at hs
    cases hs
  · exact (following_keepsFree ho hs).2 hk

theorem doMutexLockAcquire_ne_exit {idx : ℤ} (hs : doMutexLockAcquire c idx s = some (o, s')) :
    o ≠ .exit := by
  rintro rfl
  rcases index_cases idx lockNum with hi | ⟨i, hi, rfl⟩
  · rw [doMutexLockAcquire, if_pos hi] at hs
    cases hs
  cases hl : (s.mlocks i).lock with
  | locked => rw [doMutexLockAcquire_spin hi hl] at hs; cases hs
  | unlocked =>
    cases hst : (s.mlocks i).status with
    | unlocked => rw [doMutexLockAcquire_free hi hl hst] at hs; cases hs
    | locked => rw [doMutexLockAcquire_held hi hl hst] at hs; cases hs

theorem doConditionWait_ne_exit {cond mutex : ℤ} (hs : doConditionWait c cond mutex s = some (o, s')) :
    o ≠ .exit := by
  rintro rfl
  rw [doConditionWait] at hs
  split_ifs at hs
  · cases hs
  · cases hs
  · obtain ⟨s1, -, hs⟩ := Option.bind_eq_some_iff.1 hs
    obtain ⟨s2, -, hs⟩ := Option.bind_eq_some_iff.1 hs
    cases hs

theorem doBarrierWait_ne_exit {idx : ℤ} (hs : doBarrierWait c idx s = some (o, s')) : o ≠ .exit := by
  rintro rfl
  rw [doBarrierWait] at hs
  split_ifs at hs
  · cases hs
  · obtain ⟨s1, -, hs⟩ := Option.bind_eq_some_iff.1 hs
    dsimp only at hs
    split_ifs at hs
    · obtain ⟨s2, -, hs⟩ := Option.bind_eq_some_iff.1 hs
      cases hs
    · cases hs

/-- The beginning of a call. -/
theorem syscall_keepsFree (hc : call.locking) (h1 : syscall c e s call = some (o, s1))
    {r : Kernel ⊕ Kernel} (h2 : following c call (o, s1) = some r) :
    KeepsFree s (r.elim id id) ↔ OwnerGives c s call := by
  cases call with
  | mutexAcquire idx =>
    have h1 : doMutexLockAcquire c idx s = some (o, s1) := h1
    rw [following_keepsFree (doMutexLockAcquire_ne_exit h1) h2]
    exact iff_of_true (acquire_keepsFree h1) trivial
  | mutexRelease idx =>
    obtain ⟨s2, h3, h4⟩ := Option.map_eq_some_iff.1 h1
    cases h4
    rw [following_keepsFree (by simp) h2]
    exact release_keepsFree h3
  | condWait cond mutex =>
    have h1 : doConditionWait c cond mutex s = some (o, s1) := h1
    rw [following_keepsFree (doConditionWait_ne_exit h1) h2]
    exact wait_keepsFree h1
  | condSignal idx =>
    obtain ⟨s2, h3, h4⟩ := Option.map_eq_some_iff.1 h1
    cases h4
    rw [following_keepsFree (by simp) h2]
    exact iff_of_true (signal_keepsFree h3) trivial
  | condBroadcast idx =>
    obtain ⟨s2, h3, h4⟩ := Option.map_eq_some_iff.1 h1
    cases h4
    rw [following_keepsFree (by simp) h2]
    exact iff_of_true (broadcast_keepsFree h3) trivial
  | barrierWait idx =>
    have h1 : doBarrierWait c idx s = some (o, s1) := h1
    rw [following_keepsFree (doBarrierWait_ne_exit h1) h2]
    exact iff_of_true (barrierWait_keepsFree h1) trivial
  | mboxSend idx msg length =>
    obtain ⟨h3, h4⟩ := send_ends idx h1
    exact iff_of_true (h3.keepsFree h4 h2) trivial
  | mboxRecv idx msg length =>
    obtain ⟨h3, h4⟩ := recv_ends idx h1
    exact iff_of_true (h3.keepsFree h4 h2) trivial
  | _ => cases hc

/-- The rest of a call after do_scheduler. -/
theorem resume_keepsFree {point : Point} (hp : Fits s call point)
    (h1 : resume c e s call point = some (o, s1)) {r : Kernel ⊕ Kernel}
    (h2 : following c call (o, s1) = some r) (hc : call.locking) : KeepsFree s (r.elim id id) := by
  cases point with
  | ret v =>
    cases h1
    rw [following_keepsFree (by simp) h2]
    exact SameSpin.refl.keepsFree
  | relock mutex =>
    have h1 : doMutexLockAcquire c mutex s = some (o, s1) := h1
    rw [following_keepsFree (doMutexLockAcquire_ne_exit h1) h2]
    exact acquire_keepsFree h1
  | send sent pin =>
    cases call <;> try exact hp.elim
    exact (resumeSend_ends SameSpin.refl h1).keepsFree (fun _ => hp) h2
  | recv read pin =>
    cases call <;> try exact hp.elim
    exact (resumeRecv_ends SameSpin.refl h1).keepsFree (fun _ => hp) h2
  | give done => cases call <;> first | exact hp.elim | cases hc
  | take done => cases call <;> first | exact hp.elim | cases hc

/-- **The calls give back the spin locks that they take**, in any state and with any arguments, just when
the process does not give up a mutex of another. -/
theorem callPart_keepsFree (hc : call.locking) {p : Option Point} (hp : ∀ point ∈ p, Fits s call point)
    {r : Kernel ⊕ Kernel} (hs : callPart c e call p s = some r) :
    KeepsFree s (r.elim id id) ↔ (p = none → OwnerGives c s call) := by
  obtain ⟨⟨o, s1⟩, h1, h2⟩ := Option.bind_eq_some_iff.1 hs
  cases p with
  | none =>
    rw [syscall_keepsFree hc h1 h2]
    simp
  | some point => exact iff_of_true (resume_keepsFree (hp point rfl) h1 h2 hc) (by simp)

/-- The first process takes mutex 0. -/
def heldMutex : Kernel := Run.run next boot (twoProcesses ++ [calls 0 (.mutexAcquire 0)])

theorem heldMutex_release (c : ℕ) (hc : c = 0 ∨ c = 1) :
    ∃ r, callPart c ⟨0, fun _ => 0#8⟩ (.mutexRelease 0) none heldMutex = some r := by
  rcases hc with rfl | rfl
  · exact Option.isSome_iff_exists.1 (by decide +kernel)
  · exact Option.isSome_iff_exists.1 (by decide +kernel)

/-- The process gives its mutex back. -/
theorem callPart_keepsFree_owner : ∃ r, KeepsFree heldMutex r ↔
    ((none : Option Point) = none → OwnerGives 0 heldMutex (.mutexRelease 0)) := by
  obtain ⟨r, hr⟩ := heldMutex_release 0 (by simp)
  exact ⟨_, callPart_keepsFree rfl (by simp) hr⟩

/-- The other process gives the mutex back: the spin lock is held when the call returns. -/
theorem callPart_other : ¬ ∀ (c : ℕ) (e : Env) (call : Call) (s : Kernel) (r : Kernel ⊕ Kernel),
    call.locking → callPart c e call none s = some r → KeepsFree s (r.elim id id) := by
  intro h
  obtain ⟨r, hr⟩ := heldMutex_release 1 (by simp)
  have h1 := h 1 ⟨0, fun _ => 0#8⟩ (.mutexRelease 0) heldMutex r rfl hr
  obtain ⟨⟨o, s1⟩, h2, h3⟩ := Option.bind_eq_some_iff.1 hr
  rw [syscall_keepsFree rfl h2 h3] at h1
  have h4 : ¬ Owns 1 0 heldMutex := by decide +kernel
  exact h4 h1

end RiscvKernel.Sched
