import RiscvKernel.Sched.Switch

/-!
# The calls and the queues

For every call: what it does when the queues and the statuses agree, up to its return or to
`do_scheduler`. The spin locks drop out of these equations, since a call that returns has
released the ones it took; the exception is `do_mutex_lock_release` by another process than the owner.
-/

namespace RiscvKernel.Sched

open Lib Mm

variable {x : Option ℕ} {c now i : ℕ} {s : Kernel} {q : Head → List Task} {t : Task}

/-- An index is out of range or it is a number below the bound. -/
theorem index_cases (idx : ℤ) (n : ℕ) : (idx < 0 ∨ (n : ℤ) ≤ idx) ∨ ∃ i : ℕ, i < n ∧ idx = i := by
  by_cases h : idx < 0 ∨ (n : ℤ) ≤ idx
  · exact Or.inl h
  · exact Or.inr ⟨idx.toNat, by omega, by omega⟩

theorem index_in {n : ℕ} (h : i < n) : ¬ ((i : ℤ) < 0 ∨ (n : ℤ) ≤ i) := by omega

/-! ## Mutexes -/

theorem doMutexLockAcquire_spin (hi : i < lockNum) (hl : (s.mlocks i).lock = .locked) :
    doMutexLockAcquire c i s = none := by
  rw [doMutexLockAcquire, if_neg (index_in hi)]
  simp [acquireMutexSpin, hl]

theorem doMutexLockRelease_spin (hi : i < lockNum) (hl : (s.mlocks i).lock = .locked) :
    doMutexLockRelease c i s = none := by
  rw [doMutexLockRelease, if_neg (index_in hi)]
  simp [acquireMutexSpin, hl]

theorem doMutexLockAcquire_free (hi : i < lockNum) (hl : (s.mlocks i).lock = .unlocked)
    (hs : (s.mlocks i).status = .unlocked) :
    doMutexLockAcquire c i s =
      some (.ret 0, s.setMutex i { s.mlocks i with status := .locked, pid := (s.cur c).pid }) := by
  rw [doMutexLockAcquire, if_neg (index_in hi)]
  simp [acquireMutexSpin, hl, hs, releaseMutexSpin, Kernel.setMutex, Kernel.cur]

theorem doMutexLockAcquire_held (hi : i < lockNum) (hl : (s.mlocks i).lock = .unlocked)
    (hs : (s.mlocks i).status = .locked) :
    doMutexLockAcquire c i s = some (.sched (.ret 0), doBlock (s.current c) (.mutex i) s) := by
  have hm : (⟨.unlocked, .locked, (s.mlocks i).key, (s.mlocks i).pid⟩ : MutexLock) = s.mlocks i := by
    rw [← hl, ← hs]
  rw [doMutexLockAcquire, if_neg (index_in hi)]
  simp only [acquireMutexSpin, hl, Int.toNat_natCast, reduceCtorEq, if_false, Option.bind_eq_bind,
    Option.bind_some]
  rw [if_pos (by simp [Kernel.setMutex, hs])]
  unfold doBlock
  by_cases hk : (s.pcb (s.current c)).killed
  · simp [releaseMutexSpin, Kernel.setMutex, hk, hs, hm]
  · simp [releaseMutexSpin, Kernel.setMutex, hk, hs, hm, enqueue, Kernel.setLinks, Kernel.setStatus,
      Kernel.setPcb, Kernel.addLog]

theorem dequeue_comm {h : Head} {f : Kernel → Kernel} (hf : (f s).links = s.links)
    (hl : ∀ l, (f s).setLinks l = f (s.setLinks l)) :
    dequeue h (f s) = (dequeue h s).map fun r => (r.1, f r.2) := by
  unfold dequeue
  rw [hf]
  rcases Links.dequeue (.inr h) s.links with ⟨_ | ⟨t | k⟩, l⟩
  · rfl
  · exact congrArg (fun z => some (t, z)) (hl l)
  · rfl

theorem dequeue_eq_some {h : Head} {s' : Kernel} (hd : dequeue h s = some (t, s')) :
    ∃ l, s' = s.setLinks l := by
  unfold dequeue at hd
  split at hd
  · obtain ⟨-, rfl⟩ := Prod.mk.inj (Option.some.inj hd)
    exact ⟨_, rfl⟩
  · cases hd

/-- `do_mutex_lock_release` without its spin lock. -/
theorem doMutexLockRelease_eq (hi : i < lockNum) (hl : (s.mlocks i).lock = .unlocked) :
    doMutexLockRelease c i s =
      if (s.cur c).pid ≠ (s.mlocks i).pid then some (s.setMutex i { s.mlocks i with lock := .locked })
      else if isEmptyQueue (.mutex i) s then some (s.setMutex i ⟨.unlocked, .unlocked, unused, 0⟩)
      else (dequeue (.mutex i) s).map fun r =>
        (doUnblock r.1 r.2).setMutex i { s.mlocks i with pid := (s.pcb r.1).pid } := by
  rw [doMutexLockRelease, if_neg (index_in hi)]
  simp only [acquireMutexSpin, hl, Int.toNat_natCast, reduceCtorEq, if_false, Option.bind_eq_bind,
    Option.bind_some]
  have hcur : ((s.setMutex i { s.mlocks i with lock := .locked }).cur c).pid = (s.cur c).pid := rfl
  have hown : ((s.setMutex i { s.mlocks i with lock := .locked }).mlocks i).pid = (s.mlocks i).pid := by
    simp [Kernel.setMutex]
  have hemp : isEmptyQueue (.mutex i) (s.setMutex i { s.mlocks i with lock := .locked }) =
      isEmptyQueue (.mutex i) s := rfl
  rw [hcur, hown, hemp]
  by_cases hp : (s.cur c).pid = (s.mlocks i).pid
  · rw [if_neg (not_not.2 hp), if_neg (not_not.2 hp)]
    cases he : isEmptyQueue (.mutex i) s with
    | true => simp [releaseMutexSpin, Kernel.setMutex]
    | false =>
      rw [dequeue_comm (f := fun s' => s'.setMutex i { s.mlocks i with lock := .locked }) rfl
        (fun _ => rfl)]
      cases hd : dequeue (.mutex i) s with
      | none => rfl
      | some r =>
        obtain ⟨t, s'⟩ := r
        obtain ⟨l, rfl⟩ := dequeue_eq_some hd
        simp [releaseMutexSpin, Kernel.setMutex, doUnblock, enqueue, Kernel.setLinks, Kernel.setStatus,
          Kernel.setPcb, Kernel.addLog]
  · rw [if_pos hp, if_pos hp]
    rfl

theorem doMutexLockRelease_other (hi : i < lockNum) (hl : (s.mlocks i).lock = .unlocked)
    (hp : (s.cur c).pid ≠ (s.mlocks i).pid) :
    doMutexLockRelease c i s = some (s.setMutex i { s.mlocks i with lock := .locked }) := by
  rw [doMutexLockRelease_eq hi hl, if_pos hp]

theorem doMutexLockRelease_last (H : Mid x s q) (hi : i < lockNum)
    (hl : (s.mlocks i).lock = .unlocked) (hp : (s.cur c).pid = (s.mlocks i).pid)
    (hq : q (.mutex i) = []) :
    doMutexLockRelease c i s = some (s.setMutex i ⟨.unlocked, .unlocked, unused, 0⟩) := by
  rw [doMutexLockRelease_eq hi hl, if_neg (not_not.2 hp), if_pos (by rw [H.isEmptyQueue, hq]; rfl)]

/-- The owner hands the mutex to the process that has waited longest. -/
theorem doMutexLockRelease_next {ns : List Task} (H : Mid x s q) (hi : i < lockNum)
    (hl : (s.mlocks i).lock = .unlocked) (hp : (s.cur c).pid = (s.mlocks i).pid)
    (hq : q (.mutex i) = t :: ns) :
    ∃ l, doMutexLockRelease c i s =
        some ((woken t l s).setMutex i { s.mlocks i with pid := (s.pcb t).pid }) ∧
      Mid x ((woken t l s).setMutex i { s.mlocks i with pid := (s.pcb t).pid })
        (moved q (.mutex i) ns t) := by
  obtain ⟨l, l', h1, h2, h3⟩ := H.dequeue (h := .mutex i) (by simp) hq
  refine ⟨l', ?_, h3⟩
  rw [doMutexLockRelease_eq hi hl, if_neg (not_not.2 hp), if_neg (by rw [H.isEmptyQueue, hq]; simp), h1]
  exact congrArg some (by rw [← h2])

/-! ## Condition variables -/

theorem doMutexLockRelease_setCondition (idx : ℤ) (y : Condition) :
    doMutexLockRelease c idx (s.setCondition i y) =
      (doMutexLockRelease c idx s).map (·.setCondition i y) := by
  rcases index_cases idx lockNum with hi | ⟨k, hk, rfl⟩
  · rw [doMutexLockRelease, doMutexLockRelease, if_pos hi, if_pos hi]; rfl
  cases hl : (s.mlocks k).lock with
  | locked => rw [doMutexLockRelease_spin hk hl, doMutexLockRelease_spin hk (s := s.setCondition i y) hl]; rfl
  | unlocked =>
    rw [doMutexLockRelease_eq hk hl, doMutexLockRelease_eq hk (s := s.setCondition i y) hl,
      dequeue_comm (f := fun s => s.setCondition i y) rfl (fun _ => rfl)]
    have hcur : ((s.setCondition i y).cur c).pid = (s.cur c).pid := rfl
    have hemp : isEmptyQueue (.mutex k) (s.setCondition i y) = isEmptyQueue (.mutex k) s := rfl
    rw [hcur, hemp, Kernel.setCondition_mlocks]
    split_ifs
    · rfl
    · rfl
    · cases dequeue (.mutex k) s <;> rfl

theorem doMutexLockRelease_conditions {idx : ℤ} {s' : Kernel} (h : doMutexLockRelease c idx s = some s') :
    s'.conditions = s.conditions := by
  rcases index_cases idx lockNum with hi | ⟨k, hk, rfl⟩
  · rw [doMutexLockRelease, if_pos hi] at h
    rw [Option.some.inj h]
  cases hl : (s.mlocks k).lock with
  | locked => rw [doMutexLockRelease_spin hk hl] at h; cases h
  | unlocked =>
    rw [doMutexLockRelease_eq hk hl] at h
    split_ifs at h
    · rw [← Option.some.inj h]; rfl
    · rw [← Option.some.inj h]; rfl
    · obtain ⟨r, hr, rfl⟩ := Option.map_eq_some_iff.1 h
      obtain ⟨l, hl⟩ := dequeue_eq_some hr
      rw [hl]; rfl

theorem doConditionWait_spin {m : ℤ} (hi : i < conditionNum) (hm : ¬ (m < 0 ∨ (lockNum : ℤ) ≤ m))
    (hl : (s.conditions i).lock = .locked) : doConditionWait c i m s = none := by
  rw [doConditionWait, if_neg (index_in hi), if_neg hm]
  simp [acquireConditionSpin, hl]

theorem doConditionWait_eq {m : ℤ} (hi : i < conditionNum) (hm : ¬ (m < 0 ∨ (lockNum : ℤ) ≤ m))
    (hl : (s.conditions i).lock = .unlocked) :
    doConditionWait c i m s = (doMutexLockRelease c m (doBlock (s.current c) (.cond i) s)).map
      (Prod.mk (.sched (.relock m))) := by
  have hy : ({ s.conditions i with lock := .unlocked } : Condition) = s.conditions i := by rw [← hl]
  have hb : doBlock (s.current c) (.cond i) (s.setCondition i { s.conditions i with lock := .locked }) =
      (doBlock (s.current c) (.cond i) s).setCondition i { s.conditions i with lock := .locked } := by
    unfold doBlock
    by_cases hk : (s.pcb (s.current c)).killed
    · simp [hk]
    · simp [hk]; rfl
  have hcond : (doBlock (s.current c) (.cond i) s).conditions = s.conditions := by
    unfold doBlock; split_ifs <;> rfl
  rw [doConditionWait, if_neg (index_in hi), if_neg hm]
  simp only [acquireConditionSpin, hl, Int.toNat_natCast, reduceCtorEq, if_false, Option.bind_eq_bind,
    Option.bind_some, Kernel.setCondition_current, hb, doMutexLockRelease_setCondition]
  cases h : doMutexLockRelease c m (doBlock (s.current c) (.cond i) s) with
  | none => rfl
  | some s' =>
    simp only [Option.map_some, Option.bind_some, releaseConditionSpin]
    have hs' : s'.conditions i = s.conditions i := by rw [doMutexLockRelease_conditions h, hcond]
    have he : Function.update s'.conditions i (s.conditions i) = s'.conditions := by
      rw [← hs', Function.update_eq_self]
    refine congrArg (fun z => some (Out.sched (.relock m), z)) ?_
    simp [Kernel.setCondition, hy, he]

theorem doConditionSignal_spin (hi : i < conditionNum) (hl : (s.conditions i).lock = .locked) :
    doConditionSignal i s = none := by
  rw [doConditionSignal, if_neg (index_in hi)]
  simp [acquireConditionSpin, hl]

theorem doConditionBroadcast_spin (hi : i < conditionNum) (hl : (s.conditions i).lock = .locked) :
    doConditionBroadcast i s = none := by
  rw [doConditionBroadcast, if_neg (index_in hi)]
  simp [acquireConditionSpin, hl]

theorem doConditionSignal_nil (H : Mid x s q) (hi : i < conditionNum)
    (hl : (s.conditions i).lock = .unlocked) (hq : q (.cond i) = []) :
    doConditionSignal i s = some s := by
  have he : isEmptyQueue (.cond i) (s.setCondition i { s.conditions i with lock := .locked }) = true := by
    have := H.isEmptyQueue (h := .cond i)
    rw [hq] at this
    exact this
  rw [doConditionSignal, if_neg (index_in hi)]
  simp only [acquireConditionSpin, hl, Int.toNat_natCast, reduceCtorEq, if_false, Option.bind_eq_bind,
    Option.bind_some, he]
  simp [releaseConditionSpin, Kernel.setCondition, ← hl]

/-- A signal wakes the process that has waited longest. -/
theorem doConditionSignal_cons {ts : List Task} (H : Mid x s q) (hi : i < conditionNum)
    (hl : (s.conditions i).lock = .unlocked) (hq : q (.cond i) = t :: ts) :
    ∃ l, doConditionSignal i s = some (woken t l s) ∧ Mid x (woken t l s) (moved q (.cond i) ts t) := by
  obtain ⟨l, l', h1, h2, h3⟩ := H.dequeue (h := .cond i) (by simp) hq
  refine ⟨l', ?_, h3⟩
  have he : isEmptyQueue (.cond i) (s.setCondition i { s.conditions i with lock := .locked }) = false := by
    have := H.isEmptyQueue (h := .cond i)
    rw [hq] at this
    exact this
  have hy : (⟨.unlocked, (s.conditions i).key⟩ : Condition) = s.conditions i := by rw [← hl]
  rw [doConditionSignal, if_neg (index_in hi)]
  simp only [acquireConditionSpin, hl, Int.toNat_natCast, reduceCtorEq, if_false, Option.bind_eq_bind,
    Option.bind_some, he, Bool.not_false, if_true]
  rw [dequeue_comm (f := fun s' => s'.setCondition i { s.conditions i with lock := .locked }) rfl
    (fun _ => rfl), h1]
  refine congrArg some ?_
  rw [← h2]
  simp [releaseConditionSpin, Kernel.setCondition, doUnblock, enqueue, Kernel.setLinks, Kernel.setStatus,
    Kernel.setPcb, Kernel.addLog, hy]

/-- A function on states that has nothing to do with queues and statuses. -/
structure Aside (f : Kernel → Kernel) : Prop where
  links : ∀ s, (f s).links = s.links
  pcb : ∀ s, (f s).pcb = s.pcb
  unblock : ∀ s t, doUnblock t (f s) = f (doUnblock t s)

theorem Aside.wakeupFrom {f : Kernel → Kernel} (hf : Aside f) (h : Head) :
    ∀ (fuel : ℕ) (n : Node) (s : Kernel),
      Sched.wakeupFrom h fuel n (f s) = (Sched.wakeupFrom h fuel n s).map f := by
  intro fuel
  induction fuel with
  | zero => intro n s; rfl
  | succ fuel ih =>
    intro n s
    cases n with
    | inl t => rw [Sched.wakeupFrom, Sched.wakeupFrom, hf.links, hf.unblock, ih]
    | inr k =>
      rw [Sched.wakeupFrom, Sched.wakeupFrom]
      split_ifs <;> rfl

theorem Aside.wakeup {f : Kernel → Kernel} (hf : Aside f) (h : Head) :
    Sched.wakeup h (f s) = (Sched.wakeup h s).map f := by
  rw [Sched.wakeup, hf.links]
  exact hf.wakeupFrom h _ _ s

theorem aside_setCondition (y : Condition) : Aside (·.setCondition i y) :=
  ⟨fun _ => rfl, fun _ => rfl, fun _ _ => rfl⟩

theorem aside_setBarrier (y : Barrier) : Aside (·.setBarrier i y) :=
  ⟨fun _ => rfl, fun _ => rfl, fun _ _ => rfl⟩

/-- A broadcast wakes all waiting processes. -/
theorem doConditionBroadcast_eq (H : Mid x s q) (hi : i < conditionNum)
    (hl : (s.conditions i).lock = .unlocked) :
    ∃ l, doConditionBroadcast i s = some (wokenAll (q (.cond i)) l s) ∧
      Mid x (wokenAll (q (.cond i)) l s) (movedAll q (.cond i) [] (q (.cond i))) := by
  obtain ⟨l, h1, h2⟩ := H.wakeup (h := .cond i) (by simp)
  refine ⟨l, ?_, h2⟩
  have hy : (⟨.unlocked, (s.conditions i).key⟩ : Condition) = s.conditions i := by rw [← hl]
  rw [doConditionBroadcast, if_neg (index_in hi)]
  simp only [acquireConditionSpin, hl, Int.toNat_natCast, reduceCtorEq, if_false, Option.bind_eq_bind,
    Option.bind_some]
  rw [(aside_setCondition _).wakeup, h1]
  refine congrArg some ?_
  simp [releaseConditionSpin, Kernel.setCondition, wokenAll, hy]

theorem Mid.wakeupIf (H : Mid x s q) {h : Head} (hh : h ≠ .ready) :
    ∃ l, Sched.wakeupIf h s = some (wokenAll (q h) l s) ∧
      Mid x (wokenAll (q h) l s) (movedAll q h [] (q h)) := by
  rw [Sched.wakeupIf, H.isEmptyQueue]
  cases hq : q h with
  | nil =>
    refine ⟨s.links, by simp [wokenAll_nil], ?_⟩
    rw [wokenAll_nil, movedAll_nil hq]
    exact H
  | cons t ts =>
    obtain ⟨l, h1, h2⟩ := H.wakeup hh
    rw [hq] at h1 h2
    exact ⟨l, by simpa using h1, h2⟩

theorem doConditionDestroy_eq (H : Mid x s q) (hi : i < conditionNum) :
    ∃ l, doConditionDestroy i s =
        some ((wokenAll (q (.cond i)) l s).setCondition i { s.conditions i with key := unused }) ∧
      Mid x (wokenAll (q (.cond i)) l s) (movedAll q (.cond i) [] (q (.cond i))) := by
  obtain ⟨l, h1, h2⟩ := H.wakeupIf (h := .cond i) (by simp)
  refine ⟨l, ?_, h2⟩
  rw [doConditionDestroy, if_neg (index_in hi)]
  simp only [Int.toNat_natCast, h1]
  rfl

/-! ## Barriers -/

theorem doBarrierWait_spin (hi : i < barrierNum) (hl : (s.barriers i).lock = .locked) :
    doBarrierWait c i s = none := by
  rw [doBarrierWait, if_neg (index_in hi)]
  simp [acquireBarrierSpin, hl]

/-- The last arrival opens the barrier. -/
theorem doBarrierWait_last (H : Mid x s q) (hi : i < barrierNum)
    (hl : (s.barriers i).lock = .unlocked) (hg : (s.barriers i).goal ≤ (s.barriers i).arrived + 1) :
    ∃ l, doBarrierWait c i s = some (.ret 0,
        (wokenAll (q (.barrier i)) l s).setBarrier i { s.barriers i with arrived := 0 }) ∧
      Mid x (wokenAll (q (.barrier i)) l s) (movedAll q (.barrier i) [] (q (.barrier i))) := by
  obtain ⟨l, h1, h2⟩ := H.wakeup (h := .barrier i) (by simp)
  refine ⟨l, ?_, h2⟩
  rw [doBarrierWait, if_neg (index_in hi)]
  simp only [acquireBarrierSpin, hl, Int.toNat_natCast, reduceCtorEq, if_false, Option.bind_eq_bind,
    Option.bind_some]
  rw [if_pos (by simpa [Kernel.setBarrier] using hg)]
  rw [(aside_setBarrier _).wakeup, (aside_setBarrier _).wakeup, (aside_setBarrier _).wakeup, h1]
  simp [releaseBarrierSpin, Kernel.setBarrier, wokenAll, ← hl]

/-- The other arrivals wait. -/
theorem doBarrierWait_block (hi : i < barrierNum) (hl : (s.barriers i).lock = .unlocked)
    (hg : ¬ (s.barriers i).goal ≤ (s.barriers i).arrived + 1) :
    doBarrierWait c i s = some (.sched (.ret 0), (doBlock (s.current c) (.barrier i) s).setBarrier i
      { s.barriers i with arrived := (s.barriers i).arrived + 1 }) := by
  rw [doBarrierWait, if_neg (index_in hi)]
  simp only [acquireBarrierSpin, hl, Int.toNat_natCast, reduceCtorEq, if_false, Option.bind_eq_bind,
    Option.bind_some]
  rw [if_neg (by simpa [Kernel.setBarrier] using hg)]
  unfold doBlock
  by_cases hk : (s.pcb (s.current c)).killed
  · simp [releaseBarrierSpin, Kernel.setBarrier, hk, ← hl]
  · simp [releaseBarrierSpin, Kernel.setBarrier, hk, enqueue, Kernel.setLinks, Kernel.setStatus,
      Kernel.setPcb, Kernel.addLog, ← hl]

theorem doBarrierDestroy_eq (H : Mid x s q) (hi : i < barrierNum) :
    ∃ l, doBarrierDestroy i s = some ((wokenAll (q (.barrier i)) l s).setBarrier i
        { s.barriers i with key := unused, goal := 0, arrived := 0 }) ∧
      Mid x (wokenAll (q (.barrier i)) l s) (movedAll q (.barrier i) [] (q (.barrier i))) := by
  obtain ⟨l, h1, h2⟩ := H.wakeupIf (h := .barrier i) (by simp)
  refine ⟨l, ?_, h2⟩
  rw [doBarrierDestroy, if_neg (index_in hi)]
  simp only [Int.toNat_natCast, h1]
  refine congrArg some ?_
  have hempty := movedAll_self (h := .barrier i) q (by simp) [] (q (.barrier i))
  have hl := h2.rings.initQueue_inr hempty
  have hl : Links.initQueue (.inr (.barrier i)) l = l := hl
  simp [initQueue, Kernel.setBarrier, Kernel.setLinks, wokenAll, hl]

/-! ## Mailboxes -/

theorem doMboxClose_eq (hi : i < mboxNum) :
    doMboxClose i s =
      if i32 ((s.mailboxes i).userCount - 1) = 0 then
        (wakeup (.recv i) (s.setMailbox i
          { s.mailboxes i with userCount := 0, nread := 0, nwrite := 0 })).bind (wakeup (.send i))
      else some (s.setMailbox i
        { s.mailboxes i with userCount := i32 ((s.mailboxes i).userCount - 1) }) := by
  rw [doMboxClose, if_neg (index_in hi)]
  by_cases hu : i32 ((s.mailboxes i).userCount - 1) = 0
  · simp [Kernel.setMailbox, hu]
  · simp [Kernel.setMailbox, hu]

end RiscvKernel.Sched
