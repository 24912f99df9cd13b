import RiscvKernel.Sched.Micro

/-!
# Calls as small steps

For every call, what it does up to its return or to `do_scheduler` is a sequence of small steps about the
objects of the call.
-/

namespace RiscvKernel.Sched

open Lib Mm

/-- The object of the index `idx`, if it is one. -/
def At (f : ℕ → Obj) (idx : ℤ) (o : Obj) : Prop := ∃ i : ℕ, idx = i ∧ o = f i

theorem At.nat {f : ℕ → Obj} (i : ℕ) : At f i (f i) := ⟨i, rfl, rfl⟩

theorem At.toNat {f : ℕ → Obj} {idx : ℤ} (h : 0 ≤ idx) : At f idx (f idx.toNat) :=
  ⟨idx.toNat, (Int.toNat_of_nonneg h).symm, rfl⟩

/-- The objects that a call is about. -/
def Call.about : Call → Obj → Prop
  | .exit, o => o = .exit ∨ o = .proc ∨ ∃ i, o = .mutex i
  | .kill _, o => o = .kill
  | .mutexInit _, o => o = .keys
  | .mutexAcquire idx, o => At .mutex idx o
  | .mutexRelease idx, o => At .mutex idx o
  | .condInit _, o => ∃ i, o = .cond i
  | .condWait cond mutex, o => At .cond cond o ∨ At .mutex mutex o
  | .condSignal idx, o => At .cond idx o
  | .condBroadcast idx, o => At .cond idx o
  | .condDestroy idx, o => At .cond idx o
  | .barrierInit _ _, o => ∃ i, o = .barrier i
  | .barrierWait idx, o => At .barrier idx o
  | .barrierDestroy idx, o => At .barrier idx o
  | .mboxOpen _, o => ∃ i, o = .mbox i
  | .mboxClose idx, o => At .mbox idx o
  | .mboxSend idx _ _, o => o = .proc ∨ At .mbox idx o
  | .mboxRecv idx _ _, o => o = .proc ∨ At .mbox idx o
  | .pipeOpen _, o => ∃ i, o = .pipe i
  | .pipeGive idx _ _, o => o = .proc ∨ At .pipe idx o
  | .pipeTake idx _ _, o => o = .proc ∨ At .pipe idx o
  | _, o => o = .proc

/-- The process on CPU `c` is in the middle of a call. -/
structure Busy (c : ℕ) (s : Kernel) (q : Queues) : Prop where
  mid : Mid (some c) s q
  running : (s.cur c).status = .running
  alive : (s.cur c).killed = false

/-- The process has been through small steps, and unless it is going to call `do_scheduler`, it is still
running. -/
def Ends (c : ℕ) (P : Obj → Prop) (s : Kernel) (q : Queues) (o : Out) (s' : Kernel) : Prop :=
  ∃ q', Micros c P (s, q) (s', q') ∧
    ((s'.cur c).status = .running ∨ (∃ point, o = .sched point) ∧ (s'.cur c).status = .blocked)

section

variable {c now i : ℕ} {e : Env} {P : Obj → Prop} {o : Out} {s s' s1 : Kernel} {q q1 : Queues}
  {t : Task} {h : Head}

theorem Ends.refl (B : Busy c s q) : Ends c P s q o s := ⟨q, .refl, Or.inl B.running⟩

/-- Small steps first. -/
theorem Ends.of_micros (hm : Micros c P (s, q) (s1, q1)) (he : Ends c P s1 q1 o s') :
    Ends c P s q o s' := by
  obtain ⟨q', h1, h2⟩ := he
  exact ⟨q', hm.trans h1, h2⟩

/-- A call that writes one object. -/
theorem Ends.single (B : Busy c s q) {ob : Obj} (ho : P ob) (hm : Micro c ob s q s' q)
    (H : Mid (some c) s' q) (hr : (s'.cur c).status = (s.cur c).status) : Ends c P s q o s' :=
  ⟨q, .single ho hm H, Or.inl (hr.trans B.running)⟩

/-! ## Blocking and waking -/

/-- The process blocks in `h`. -/
theorem Busy.block (B : Busy c s q) (ht : ∃ i, s.current c = .pcb i) (ho : Open s h) (hP : P h.obj) :
    Micros c P (s, q) (doBlock (s.current c) h s, push q h (s.current c)) := by
  have H' := B.mid.doBlock rfl B.running ht B.alive ho
  rw [doBlock_eq B.alive] at H' ⊢
  exact .single hP (.block h _ B.running) H'

theorem doBlock_status (hk : (s.pcb t).killed = false) : ((doBlock t h s).pcb t).status = .blocked := by
  rw [doBlock_eq hk]
  exact (setStatus_status (s := s) t .blocked).trans (if_pos rfl)

/-- A call that blocks the process and then runs `do_scheduler`. -/
theorem Busy.ends_block (B : Busy c s q) (ht : ∃ i, s.current c = .pcb i) (ho : Open s h)
    (hP : P h.obj) (point : Point) :
    Ends c P s q (.sched point) (doBlock (s.current c) h s) := by
  refine ⟨_, B.block ht ho hP, Or.inr ⟨⟨point, rfl⟩, ?_⟩⟩
  have hc : (doBlock (s.current c) h s).current = s.current := by
    rw [doBlock_eq B.alive]; rfl
  show ((doBlock (s.current c) h s).pcb ((doBlock (s.current c) h s).current c)).status = .blocked
  rw [hc]
  exact doBlock_status B.alive

/-- A running process stays so when others are woken. -/
theorem Busy.woken {ts : List Task} {l : Links Task Head} (B : Busy c s q) (hts : ts ⊆ q h)
    (H : Mid (some c) (wokenAll ts l s) q1) : Busy c (wokenAll ts l s) q1 := by
  have hr : (s.pcb (s.current c)).status = .running := B.running
  have hn : s.current c ∉ q h := B.mid.notMem (by simp [hr]) (by simp [hr]) h
  have hp : (wokenAll ts l s).cur c = s.cur c := if_neg fun hm => hn (hts hm)
  exact ⟨H, by rw [hp]; exact hr, by rw [hp]; exact B.alive⟩

theorem woken_eq (l : Links Task Head) : woken t l s = wokenAll [t] l s := by
  rw [← wokenAll_cons (l := l)]
  exact (wokenAll_nil (s := woken t l s)).symm

theorem moved_eq (hh : h ≠ .ready) (xs : List Task) : moved q h xs t = movedAll q h xs [t] := by
  rw [← movedAll_cons hh xs, movedAll_nil]
  rw [moved, push_of_ne hh, Function.update_self]

/-- **wakeup** as a small step. -/
theorem Busy.wakeup (B : Busy c s q) (hh : h ≠ .ready) (hP : P h.obj) :
    ∃ s' q', Sched.wakeup h s = some s' ∧ Micros c P (s, q) (s', q') ∧ Busy c s' q' := by
  obtain ⟨l, h1, h2⟩ := B.mid.wakeup hh
  exact ⟨_, _, h1, .single hP (.wake h _ [] l hh (by simp)) h2, B.woken (fun _ hu => hu) h2⟩

theorem Busy.wakeupIf (B : Busy c s q) (hh : h ≠ .ready) (hP : P h.obj) :
    ∃ s' q', Sched.wakeupIf h s = some s' ∧ Micros c P (s, q) (s', q') ∧ Busy c s' q' := by
  obtain ⟨l, h1, h2⟩ := B.mid.wakeupIf hh
  exact ⟨_, _, h1, .single hP (.wake h _ [] l hh (by simp)) h2, B.woken (fun _ hu => hu) h2⟩

/-! ## Mutexes -/

theorem ends_mutexInit (B : Busy c s q) (key : ℤ) :
    Ends c (Call.mutexInit key).about s q o (doMutexLockInit key s).2 := by
  unfold doMutexLockInit
  split_ifs
  · exact .refl B
  · split
    · exact .refl B
    · split
      · exact .single B rfl (.key _ _) B.mid rfl
      · exact .refl B

theorem ends_mutexAcquire (B : Busy c s q) (ht : ∃ i, s.current c = .pcb i) {idx : ℤ}
    (hP : ∀ o, At .mutex idx o → P o) (hs : doMutexLockAcquire c idx s = some (o, s')) :
    Ends c P s q o s' := by
  rcases index_cases idx lockNum with hi | ⟨i, hi, rfl⟩
  · rw [doMutexLockAcquire, if_pos hi] at hs
    cases hs
    exact .refl B
  cases hl : (s.mlocks i).lock with
  | locked => rw [doMutexLockAcquire_spin hi hl] at hs; cases hs
  | unlocked =>
    cases hst : (s.mlocks i).status with
    | unlocked =>
      rw [doMutexLockAcquire_free hi hl hst] at hs
      cases hs
      exact .single B (hP _ (.nat i)) (.mutex i _ (Or.inl rfl)) B.mid rfl
    | locked =>
      rw [doMutexLockAcquire_held hi hl hst] at hs
      cases hs
      exact B.ends_block ht ⟨by simp, by simp, by simp⟩ (hP _ (.nat i)) _

/-- **do_mutex_lock_release** touches the mutex and the process it wakes. -/
theorem release_micros (H : Mid (some c) s q) {idx : ℤ} (hP : ∀ o, At .mutex idx o → P o)
    (hs : doMutexLockRelease c idx s = some s') :
    ∃ q', Micros c P (s, q) (s', q') ∧ ∀ u, u ∉ q (.mutex idx.toNat) → s'.pcb u = s.pcb u := by
  rcases index_cases idx lockNum with hi | ⟨i, hi, rfl⟩
  · rw [doMutexLockRelease, if_pos hi] at hs
    cases hs
    exact ⟨q, .refl, fun _ _ => rfl⟩
  cases hl : (s.mlocks i).lock with
  | locked => rw [doMutexLockRelease_spin hi hl] at hs; cases hs
  | unlocked =>
    by_cases hp : (s.cur c).pid = (s.mlocks i).pid
    · cases hq : q (.mutex i) with
      | nil =>
        rw [doMutexLockRelease_last H hi hl hp hq] at hs
        cases hs
        exact ⟨q, .single (hP _ (.nat i)) (.mutex i _ (Or.inr rfl)) H, fun _ _ => rfl⟩
      | cons t ts =>
        obtain ⟨l, h1, h2⟩ := doMutexLockRelease_next H hi hl hp hq
        rw [h1] at hs
        cases hs
        have h2 : Mid (some c) (woken t l s) (moved q (.mutex i) ts t) := h2
        rw [woken_eq, moved_eq (by simp)] at *
        refine ⟨movedAll q (.mutex i) ts [t], ?_, fun u hu => ?_⟩
        · exact .trans (.single (hP _ (.nat i)) (.wake (.mutex i) [t] ts l (by simp) hq) h2)
            (.single (hP _ (.nat i)) (.mutex i _ (Or.inl rfl)) h2)
        · refine if_neg ?_
          rw [Int.toNat_natCast, hq] at hu
          simpa using fun e => hu (by simp [e])
    · rw [doMutexLockRelease_other hi hl hp] at hs
      cases hs
      exact ⟨q, .single (hP _ (.nat i)) (.mutex i _ (Or.inl rfl)) H, fun _ _ => rfl⟩

theorem Micros.current {y z : Kernel × Queues} (hm : Micros c P y z) : z.1.current = y.1.current := by
  induction hm with
  | refl => rfl
  | tail _ hs ih =>
    obtain ⟨⟨_, -, hm⟩, -⟩ := hs
    exact hm.current.trans ih

theorem ends_mutexRelease (B : Busy c s q) {idx : ℤ} (hP : ∀ o, At .mutex idx o → P o)
    (hs : doMutexLockRelease c idx s = some s') : Ends c P s q o s' := by
  obtain ⟨q', h1, h2⟩ := release_micros B.mid hP hs
  have hr : (s.pcb (s.current c)).status = .running := B.running
  refine ⟨q', h1, Or.inl ?_⟩
  rw [Kernel.cur, h1.current, h2 _ (B.mid.notMem (by simp [hr]) (by simp [hr]) _)]
  exact hr

/-! ## Condition variables -/

theorem ends_condInit (B : Busy c s q) (key : ℤ) :
    Ends c (Call.condInit key).about s q o (doConditionInit key s).2 := by
  unfold doConditionInit
  split_ifs
  · exact .refl B
  · split
    · exact .refl B
    · split
      · exact .single B ⟨_, rfl⟩ (.cond _ _) B.mid rfl
      · exact .refl B

theorem ends_condWait (B : Busy c s q) (ht : ∃ i, s.current c = .pcb i) {cond mutex : ℤ}
    (hs : doConditionWait c cond mutex s = some (o, s')) :
    Ends c (Call.condWait cond mutex).about s q o s' := by
  rcases index_cases cond conditionNum with hi | ⟨i, hi, rfl⟩
  · rw [doConditionWait, if_pos hi] at hs
    cases hs
    exact .refl B
  by_cases hm : mutex < 0 ∨ (lockNum : ℤ) ≤ mutex
  · rw [doConditionWait, if_neg (index_in hi), if_pos hm] at hs
    cases hs
    exact .refl B
  cases hl : (s.conditions i).lock with
  | locked => rw [doConditionWait_spin hi hm hl] at hs; cases hs
  | unlocked =>
    rw [doConditionWait_eq hi hm hl] at hs
    obtain ⟨s2, h2, he⟩ := Option.map_eq_some_iff.1 hs
    cases he
    have hb : Micros c (Call.condWait i mutex).about (s, q) _ :=
      B.block ht (h := .cond i) ⟨by simp, by simp, by simp⟩ (Or.inl (.nat i))
    obtain ⟨q', h3, h4⟩ := release_micros (P := (Call.condWait i mutex).about) (hb.mid B.mid)
      (fun _ => Or.inr) h2
    refine ⟨q', hb.trans h3, Or.inr ⟨⟨_, rfl⟩, ?_⟩⟩
    have hcur : s'.current c = s.current c := congrFun (hb.trans h3).current c
    -- the process is in the queue of the condition, so it is not the one that gets the mutex
    have hn : s.current c ∉ push q (.cond i) (s.current c) (.mutex mutex.toNat) := by
      intro hin
      have H : Mid (some c) _ (push q (.cond i) (s.current c)) := hb.mid B.mid
      have := H.rings.disj hin (mem_push.2 (Or.inr ⟨rfl, rfl⟩))
      simp at this
    rw [Kernel.cur, hcur, h4 _ hn]
    exact doBlock_status B.alive

theorem ends_condSignal (B : Busy c s q) {idx : ℤ} (hs : doConditionSignal idx s = some s') :
    Ends c (Call.condSignal idx).about s q o s' := by
  rcases index_cases idx conditionNum with hi | ⟨i, hi, rfl⟩
  · rw [doConditionSignal, if_pos hi] at hs
    cases hs
    exact .refl B
  cases hl : (s.conditions i).lock with
  | locked => rw [doConditionSignal_spin hi hl] at hs; cases hs
  | unlocked =>
    cases hq : q (.cond i) with
    | nil =>
      rw [doConditionSignal_nil B.mid hi hl hq] at hs
      cases hs
      exact .refl B
    | cons t ts =>
      obtain ⟨l, h1, h2⟩ := doConditionSignal_cons B.mid hi hl hq
      rw [h1] at hs
      cases hs
      rw [woken_eq, moved_eq (by simp)] at *
      exact ⟨_, .single (.nat i) (.wake (.cond i) [t] ts l (by simp) hq) h2,
        Or.inl (B.woken (h := .cond i) (by simp [hq]) h2).running⟩

theorem ends_condBroadcast (B : Busy c s q) {idx : ℤ} (hs : doConditionBroadcast idx s = some s') :
    Ends c (Call.condBroadcast idx).about s q o s' := by
  rcases index_cases idx conditionNum with hi | ⟨i, hi, rfl⟩
  · rw [doConditionBroadcast, if_pos hi] at hs
    cases hs
    exact .refl B
  cases hl : (s.conditions i).lock with
  | locked => rw [doConditionBroadcast_spin hi hl] at hs; cases hs
  | unlocked =>
    obtain ⟨l, h1, h2⟩ := doConditionBroadcast_eq B.mid hi hl
    rw [h1] at hs
    cases hs
    exact ⟨_, .single (.nat i) (.wake (.cond i) _ [] l (by simp) (by simp)) h2,
      Or.inl (B.woken (fun _ hu => hu) h2).running⟩

theorem ends_condDestroy (B : Busy c s q) {idx : ℤ} (hs : doConditionDestroy idx s = some s') :
    Ends c (Call.condDestroy idx).about s q o s' := by
  rcases index_cases idx conditionNum with hi | ⟨i, hi, rfl⟩
  · rw [doConditionDestroy, if_pos hi] at hs
    cases hs
    exact .refl B
  obtain ⟨l, h1, h2⟩ := doConditionDestroy_eq B.mid hi
  rw [h1] at hs
  cases hs
  refine ⟨_, .trans (.single (.nat i) (.wake (.cond i) _ [] l (by simp) (by simp)) h2)
    (.single (.nat i) (.cond i _) h2), Or.inl (B.woken (fun _ hu => hu) h2).running⟩

/-! ## Barriers -/

theorem ends_barrierInit (B : Busy c s q) (key goal : ℤ) :
    Ends c (Call.barrierInit key goal).about s q o (doBarrierInit key goal s).2 := by
  unfold doBarrierInit
  split_ifs
  · exact .refl B
  · exact .refl B
  · split
    · exact .single B ⟨_, rfl⟩ (.barrier _ _) B.mid rfl
    · split
      · exact .single B ⟨_, rfl⟩ (.barrier _ _) B.mid rfl
      · exact .refl B

theorem ends_barrierWait (B : Busy c s q) (ht : ∃ i, s.current c = .pcb i) {idx : ℤ}
    (hs : doBarrierWait c idx s = some (o, s')) : Ends c (Call.barrierWait idx).about s q o s' := by
  rcases index_cases idx barrierNum with hi | ⟨i, hi, rfl⟩
  · rw [doBarrierWait, if_pos hi] at hs
    cases hs
    exact .refl B
  cases hl : (s.barriers i).lock with
  | locked => rw [doBarrierWait_spin hi hl] at hs; cases hs
  | unlocked =>
    by_cases hg : (s.barriers i).goal ≤ (s.barriers i).arrived + 1
    · obtain ⟨l, h1, h2⟩ := doBarrierWait_last (c := c) B.mid hi hl hg
      rw [h1] at hs
      cases hs
      exact ⟨_, .trans (.single (.nat i) (.wake (.barrier i) _ [] l (by simp) (by simp)) h2)
        (.single (.nat i) (.barrier i _) h2), Or.inl (B.woken (fun _ hu => hu) h2).running⟩
    · rw [doBarrierWait_block hi hl hg] at hs
      cases hs
      obtain ⟨q', h1, h2⟩ := B.ends_block (P := (Call.barrierWait i).about) ht (h := .barrier i)
        ⟨by simp, by simp, by simp⟩ (.nat i) (.ret 0)
      exact ⟨q', .trans h1 (.single (.nat i) (.barrier i _) (h1.mid B.mid)), h2⟩

theorem ends_barrierDestroy (B : Busy c s q) {idx : ℤ} (hs : doBarrierDestroy idx s = some s') :
    Ends c (Call.barrierDestroy idx).about s q o s' := by
  rcases index_cases idx barrierNum with hi | ⟨i, hi, rfl⟩
  · rw [doBarrierDestroy, if_pos hi] at hs
    cases hs
    exact .refl B
  obtain ⟨l, h1, h2⟩ := doBarrierDestroy_eq B.mid hi
  rw [h1] at hs
  cases hs
  exact ⟨_, .trans (.single (.nat i) (.wake (.barrier i) _ [] l (by simp) (by simp)) h2)
    (.single (.nat i) (.barrier i _) h2), Or.inl (B.woken (fun _ hu => hu) h2).running⟩

/-! ## Mailboxes -/

theorem ends_mboxOpen (B : Busy c s q) {name : CStr} {r : ℤ × Kernel}
    (hs : doMboxOpen name s = some r) : Ends c (Call.mboxOpen name).about s q o r.2 := by
  unfold doMboxOpen at hs
  split at hs
  · cases hs
    exact .single B ⟨_, rfl⟩ (.mbox _ _) B.mid rfl
  · split at hs
    · split_ifs at hs
      cases hs
      exact .single B ⟨_, rfl⟩ (.mbox _ _) B.mid rfl
    · cases hs
      exact .refl B

theorem Busy.setMailbox (B : Busy c s q) (i : ℕ) (m : Mailbox) : Busy c (s.setMailbox i m) q :=
  ⟨B.mid, B.running, B.alive⟩

theorem Busy.setMemory (B : Busy c s q) (m : Memory) : Busy c (s.setMemory m) q :=
  ⟨B.mid, B.running, B.alive⟩

theorem Busy.addLog (B : Busy c s q) (ev : Event) : Busy c (s.addLog ev) q :=
  ⟨B.mid, B.running, B.alive⟩

theorem Busy.setPipe (B : Busy c s q) (i : ℕ) {p : Pipe} (hv : (s.pipes i).valid → p.valid) :
    Busy c (s.setPipe i p) q := by
  refine ⟨{ B.mid with pipe := fun {k} hk => B.mid.pipe ?_ }, B.running, B.alive⟩
  by_cases e : k = i
  · subst e
    have hk : p.valid = false := by simpa [Kernel.setPipe] using hk
    by_contra hne
    rw [hv (by simpa using hne)] at hk
    cases hk
  · simpa [Kernel.setPipe, e] using hk

theorem ends_mboxClose (B : Busy c s q) {idx : ℤ} (hs : doMboxClose idx s = some s') :
    Ends c (Call.mboxClose idx).about s q o s' := by
  rcases index_cases idx mboxNum with hi | ⟨i, hi, rfl⟩
  · rw [doMboxClose, if_pos hi] at hs
    cases hs
    exact .refl B
  rw [doMboxClose_eq hi] at hs
  split_ifs at hs with hu
  · have B1 := B.setMailbox i { s.mailboxes i with userCount := 0, nread := 0, nwrite := 0 }
    obtain ⟨s2, q2, h2, m2, B2⟩ := B1.wakeup (h := .recv i) (P := (Call.mboxClose i).about) (by simp)
      (.nat i)
    obtain ⟨s3, q3, h3, m3, B3⟩ := B2.wakeup (h := .send i) (P := (Call.mboxClose i).about) (by simp)
      (.nat i)
    rw [h2, Option.bind_some, h3] at hs
    cases hs
    exact ⟨q3, .trans (.single (.nat i) (.mbox i _) B.mid) (m2.trans m3), Or.inl B3.running⟩
  · cases hs
    exact .single B (.nat i) (.mbox i _) B.mid rfl

theorem pinFirst_eq {msg : ℕ} {r : Pin × Kernel} (hs : pinFirst c msg s = some r) :
    ∃ m, r.2 = s.setMemory m := by
  unfold pinFirst at hs
  obtain ⟨m, -, rfl⟩ := Option.map_eq_some_iff.1 hs
  exact ⟨m, rfl⟩

theorem pinNextIf_eq {b : Bool} {pin : Pin} {r : Bool × Pin × Kernel}
    (hs : pinNextIf c b pin s = some r) : ∃ m, r.2.2 = s.setMemory m := by
  unfold pinNextIf pinNext at hs
  split_ifs at hs
  · simp only [Option.bind_eq_bind, Option.bind_eq_some_iff] at hs
    obtain ⟨⟨ok, m⟩, -, hs⟩ := hs
    cases ok with
    | false => cases hs; exact ⟨m, rfl⟩
    | true =>
      simp only [Bool.not_true, Bool.false_eq_true, if_false, Option.bind_eq_some_iff] at hs
      obtain ⟨m', -, hs⟩ := hs
      cases hs
      exact ⟨m', rfl⟩
  · cases hs
    exact ⟨s.memory, rfl⟩

/-- The loop of **do_mbox_send**. -/
theorem ends_mboxSendLoop {length : ℤ} {data : ℕ → Byte} (hP : P .proc) (hP' : P (.mbox i)) :
    ∀ (fuel : ℕ) (sent : ℤ) (pin : Pin) (s : Kernel) (q : Queues), Busy c s q →
      (∃ i, s.current c = .pcb i) → mboxSendLoop c i length data fuel sent pin s = some (o, s') →
      Ends c P s q o s' := by
  intro fuel
  induction fuel with
  | zero => intro sent pin s q _ _ hs; cases hs
  | succ fuel ih =>
    intro sent pin s q B ht hs
    rw [mboxSendLoop] at hs
    split_ifs at hs with hlt
    · dsimp only at hs
      split_ifs at hs with hroom
      · simp only [Option.bind_eq_bind, Option.bind_eq_some_iff] at hs
        generalize List.map _ _ = bytes at hs
        obtain ⟨m, -, ⟨ok, pin', s2⟩, h2, hs⟩ := hs
        obtain ⟨mem, rfl⟩ := pinNextIf_eq h2
        refine .of_micros (.single hP' (.put i m bytes) B.mid) ?_
        refine .of_micros (.single hP (.memory mem) B.mid) ?_
        have B := ((B.setMailbox i m).addLog (.put i (s.current c) bytes)).setMemory mem
        cases ok with
        | false =>
          cases hs
          exact .refl B
        | true =>
          obtain ⟨s3, q3, h3, m3, B3⟩ := B.wakeup (h := .recv i) (P := P) (by simp) hP'
          simp only [Bool.not_true, Bool.false_eq_true, if_false, h3, Option.bind_some] at hs
          have hcur : s3.current = s.current := m3.current
          exact .of_micros m3 (ih _ _ _ _ B3 (by rwa [hcur]) hs)
      · cases hs
        obtain ⟨q', h1, h2⟩ := B.ends_block (P := P) ht (h := .send i) ⟨by simp, by simp, by simp⟩ hP'
          (.send sent pin)
        exact ⟨q', .trans h1 (.single hP' (.mbox i _) (h1.mid B.mid)), h2⟩
    · cases hs
      exact .single B hP' (.mbox i _) B.mid rfl

/-- The loop of **do_mbox_recv**. -/
theorem ends_mboxRecvLoop {length : ℤ} (hP : P .proc) (hP' : P (.mbox i)) :
    ∀ (fuel : ℕ) (read : ℤ) (pin : Pin) (s : Kernel) (q : Queues), Busy c s q →
      (∃ i, s.current c = .pcb i) → mboxRecvLoop c i length fuel read pin s = some (o, s') →
      Ends c P s q o s' := by
  intro fuel
  induction fuel with
  | zero => intro read pin s q _ _ hs; cases hs
  | succ fuel ih =>
    intro read pin s q B ht hs
    rw [mboxRecvLoop] at hs
    split_ifs at hs with hlt
    · dsimp only at hs
      split_ifs at hs with hroom
      · simp only [Option.bind_eq_bind, Option.bind_eq_some_iff] at hs
        obtain ⟨⟨bytes, m⟩, -, ⟨ok, pin', s2⟩, h2, hs⟩ := hs
        obtain ⟨mem, rfl⟩ := pinNextIf_eq h2
        refine .of_micros (.single hP' (.got i m bytes) B.mid) ?_
        refine .of_micros (.single hP (.memory mem) B.mid) ?_
        have B := ((B.setMailbox i m).addLog (.got i (s.current c) bytes)).setMemory mem
        cases ok with
        | false =>
          cases hs
          exact .refl B
        | true =>
          obtain ⟨s3, q3, h3, m3, B3⟩ := B.wakeup (h := .send i) (P := P) (by simp) hP'
          simp only [Bool.not_true, Bool.false_eq_true, if_false, h3, Option.bind_some] at hs
          have hcur : s3.current = s.current := m3.current
          exact .of_micros m3 (ih _ _ _ _ B3 (by rwa [hcur]) hs)
      · cases hs
        obtain ⟨q', h1, h2⟩ := B.ends_block (P := P) ht (h := .recv i) ⟨by simp, by simp, by simp⟩ hP'
          (.recv read pin)
        exact ⟨q', .trans h1 (.single hP' (.mbox i _) (h1.mid B.mid)), h2⟩
    · cases hs
      exact .single B hP' (.mbox i _) B.mid rfl

theorem acquireMailboxSpin_eq (hs : acquireMailboxSpin i s = some s') :
    (s.mailboxes i).lock = .unlocked ∧ s' = s.setMailbox i { s.mailboxes i with lock := .locked } := by
  unfold acquireMailboxSpin at hs
  split_ifs at hs with hl
  cases hs
  refine ⟨?_, rfl⟩
  cases h : (s.mailboxes i).lock with
  | locked => exact absurd h hl
  | unlocked => rfl

theorem ends_resumeSend (B : Busy c s q) (ht : ∃ i, s.current c = .pcb i) {idx length sent : ℤ}
    {data : ℕ → Byte} {pin : Pin} (hP : P .proc) (hP' : P (.mbox idx.toNat))
    (hs : resumeMboxSend c idx length data sent pin s = some (o, s')) : Ends c P s q o s' := by
  obtain ⟨s1, h1, hs⟩ := Option.bind_eq_some_iff.1 hs
  obtain ⟨-, rfl⟩ := acquireMailboxSpin_eq h1
  exact .of_micros (.single hP' (.mbox _ _) B.mid)
    (ends_mboxSendLoop hP hP' _ _ _ _ _ (B.setMailbox _ _) ht hs)

theorem ends_resumeRecv (B : Busy c s q) (ht : ∃ i, s.current c = .pcb i) {idx length read : ℤ}
    {pin : Pin} (hP : P .proc) (hP' : P (.mbox idx.toNat))
    (hs : resumeMboxRecv c idx length read pin s = some (o, s')) : Ends c P s q o s' := by
  obtain ⟨s1, h1, hs⟩ := Option.bind_eq_some_iff.1 hs
  obtain ⟨-, rfl⟩ := acquireMailboxSpin_eq h1
  exact .of_micros (.single hP' (.mbox _ _) B.mid)
    (ends_mboxRecvLoop hP hP' _ _ _ _ _ (B.setMailbox _ _) ht hs)

theorem ends_mboxSend (B : Busy c s q) (ht : ∃ i, s.current c = .pcb i) {idx length : ℤ} {msg : ℕ}
    {data : ℕ → Byte} (hs : doMboxSend c idx msg length data s = some (o, s')) :
    Ends c (Call.mboxSend idx msg length).about s q o s' := by
  rw [doMboxSend] at hs
  split_ifs at hs with hi
  · cases hs
    exact .refl B
  · cases hs
    exact .refl B
  · obtain ⟨⟨pin, s1⟩, h1, hs⟩ := Option.bind_eq_some_iff.1 hs
    obtain ⟨m, rfl⟩ := pinFirst_eq h1
    exact .of_micros (.single (Or.inl rfl) (.memory m) B.mid)
      (ends_resumeSend (B.setMemory m) ht (Or.inl rfl) (Or.inr (.toNat (by omega))) hs)

theorem ends_mboxRecv (B : Busy c s q) (ht : ∃ i, s.current c = .pcb i) {idx length : ℤ} {msg : ℕ}
    (hs : doMboxRecv c idx msg length s = some (o, s')) :
    Ends c (Call.mboxRecv idx msg length).about s q o s' := by
  rw [doMboxRecv] at hs
  split_ifs at hs with hi
  · cases hs
    exact .refl B
  · cases hs
    exact .refl B
  · obtain ⟨⟨pin, s1⟩, h1, hs⟩ := Option.bind_eq_some_iff.1 hs
    obtain ⟨m, rfl⟩ := pinFirst_eq h1
    exact .of_micros (.single (Or.inl rfl) (.memory m) B.mid)
      (ends_resumeRecv (B.setMemory m) ht (Or.inl rfl) (Or.inr (.toNat (by omega))) hs)

/-! ## Pipes -/

/-- `sys_pipe_open` finds a pipe, or takes one that is not in use, whose queue is empty already. -/
theorem sysPipeOpen_cases {x : Option ℕ} (H : Mid x s q) {name : CStr} {r : ℤ × Kernel}
    (hs : sysPipeOpen name s = some r) : r.2 = s ∨
      ∃ k p, (s.pipes k).valid = false ∧ p.valid = true ∧ p.dataCount = 0 ∧ r.2 = s.setPipe k p := by
  unfold sysPipeOpen at hs
  split at hs
  · cases hs
    exact Or.inl rfl
  split at hs
  · rename_i k hk
    split_ifs at hs
    cases hs
    have hv : (s.pipes k).valid = false := by
      obtain ⟨j, -, -, hj, -⟩ := scan_eq_some.1 hk
      split_ifs at hj with hval
      cases hj
      simpa using hval
    have he := H.rings.initQueue_inr (H.pipe hv)
    refine Or.inr ⟨k, { s.pipes k with name := name, valid := true, head := 0, tail := 0, dataCount := 0 },
      hv, rfl, rfl, ?_⟩
    generalize ({ s.pipes k with
      name := name, valid := true, head := 0, tail := 0, dataCount := 0 } : Pipe) = p
    show initQueue (.inr (.pipe k)) (s.setPipe k p) = s.setPipe k p
    rw [initQueue, Kernel.setLinks]
    simp only [Kernel.setPipe, he]
  · cases hs
    exact Or.inl rfl

theorem ends_pipeOpen (B : Busy c s q) {name : CStr} {r : ℤ × Kernel}
    (hs : sysPipeOpen name s = some r) : Ends c (Call.pipeOpen name).about s q o r.2 := by
  rcases sysPipeOpen_cases B.mid hs with h | ⟨k, p, -, hp, -, h⟩
  · rw [h]
    exact .refl B
  · have hv : (s.pipes k).valid → p.valid := fun _ => hp
    rw [h]
    exact .single B ⟨k, rfl⟩ (.pipe k p hv) (B.setPipe k hv).mid rfl

/-- The process blocks in the queue of a pipe. -/
theorem Busy.ends_pipeBlock (B : Busy c s q) (ht : ∃ i, s.current c = .pcb i)
    (hv : (s.pipes i).valid) (hP : P (.pipe i)) (point : Point) :
    Ends c P s q (.sched point) (pipeBlock (s.current c) i s) := by
  have H' := B.mid.enqueueBlocked (h := .pipe i) rfl B.running ht
    ⟨by simp, by simp, fun e => by cases e; exact hv⟩
  refine ⟨_, .single hP (.block (.pipe i) _ B.running) H', Or.inr ⟨⟨point, rfl⟩, ?_⟩⟩
  exact (setStatus_status (s := s) (s.current c) .blocked).trans (if_pos rfl)

/-- A pipe is written and its queue woken. -/
theorem Busy.stepPipe (B : Busy c s q) (hP : P (.pipe i)) {p : Pipe}
    (hv : (s.pipes i).valid → p.valid) :
    ∃ s' q', Sched.wakeupIf (.pipe i) (s.setPipe i p) = some s' ∧ Micros c P (s, q) (s', q') ∧
      Busy c s' q' ∧ (s'.pipes i).valid = p.valid := by
  obtain ⟨l, h1, h2⟩ := (B.setPipe i hv).mid.wakeupIf (h := .pipe i) (by simp)
  refine ⟨_, _, h1, .trans (.single hP (.pipe i p hv) (B.setPipe i hv).mid)
    (.single hP (.wake (.pipe i) _ [] l (by simp) (by simp)) h2),
    (B.setPipe i hv).woken (fun _ hu => hu) h2, ?_⟩
  simp [wokenAll, Kernel.setPipe]

/-- The loop of **sys_pipe_give_pages**. -/
theorem ends_pipeGiveLoop {src length : ℕ} (hP : P .proc) (hP' : P (.pipe i)) :
    ∀ (fuel : ℕ) (done : ℤ) (s : Kernel) (q : Queues), Busy c s q → (∃ i, s.current c = .pcb i) →
      (s.pipes i).valid → pipeGiveLoop c i src length fuel done s = some (o, s') →
      Ends c P s q o s' := by
  intro fuel
  induction fuel with
  | zero => intro done s q _ _ _ hs; cases hs
  | succ fuel ih =>
    intro done s q B ht hv hs
    rw [pipeGiveLoop] at hs
    split_ifs at hs with hlt hfull
    · cases hs
      exact B.ends_pipeBlock ht hv hP' _
    · simp only [Option.bind_eq_bind, Option.bind_eq_some_iff] at hs
      obtain ⟨⟨pa, m⟩, -, hs⟩ := hs
      refine .of_micros (.single hP (.memory m) B.mid) ?_
      have B := B.setMemory m
      cases pa with
      | none =>
        cases hs
        exact .refl B
      | some pa =>
        simp only [Option.bind_eq_some_iff] at hs
        obtain ⟨s3, h3, hs⟩ := hs
        obtain ⟨s4, q4, h4, m4, B4, hv4⟩ := B.stepPipe (P := P) hP' (p := { s.pipes i with
          pageBuffer := Function.update (s.pipes i).pageBuffer (s.pipes i).head pa
          head := ((s.pipes i).head + 1) % pipeBufferSize
          dataCount := (s.pipes i).dataCount + 1 }) (fun h => h)
        obtain rfl : s3 = s4 := Option.some.inj (h3.symm.trans h4)
        have hcur : s3.current = s.current := m4.current
        exact .of_micros m4 (ih _ _ _ B4 (by rwa [hcur]) (by rwa [hv4]) hs)
    · cases hs
      exact .refl B

/-- The loop of **sys_pipe_take_pages**. -/
theorem ends_pipeTakeLoop {dst length : ℕ} (hP : P .proc) (hP' : P (.pipe i)) :
    ∀ (fuel : ℕ) (done : ℤ) (s : Kernel) (q : Queues), Busy c s q → (∃ i, s.current c = .pcb i) →
      (s.pipes i).valid → pipeTakeLoop c i dst length fuel done s = some (o, s') →
      Ends c P s q o s' := by
  intro fuel
  induction fuel with
  | zero => intro done s q _ _ _ hs; cases hs
  | succ fuel ih =>
    intro done s q B ht hv hs
    rw [pipeTakeLoop] at hs
    split_ifs at hs with hlt hempty
    · cases hs
      exact B.ends_pipeBlock ht hv hP' _
    · simp only [Option.bind_eq_bind, Option.bind_eq_some_iff] at hs
      obtain ⟨⟨ok, m⟩, -, hs⟩ := hs
      have hv' : (s.pipes i).valid → ({ s.pipes i with
          tail := ((s.pipes i).tail + 1) % pipeBufferSize
          dataCount := (s.pipes i).dataCount - 1 } : Pipe).valid := fun h => h
      cases ok with
      | false =>
        cases hs
        refine .of_micros (.single hP' (.pipe i _ hv') (B.setPipe i hv').mid) ?_
        exact .of_micros (.single hP (.memory m) (B.setPipe i hv').mid)
          (.refl ((B.setPipe i hv').setMemory m))
      | true =>
        simp only [Bool.not_true, Bool.false_eq_true, if_false, Option.bind_eq_some_iff] at hs
        obtain ⟨s3, h3, hs⟩ := hs
        refine .of_micros (.single hP (.memory m) B.mid) ?_
        obtain ⟨s4, q4, h4, m4, B4, hv4⟩ := (B.setMemory m).stepPipe (P := P) hP' hv'
        obtain rfl : s3 = s4 := Option.some.inj (h3.symm.trans h4)
        have hcur : s3.current = s.current := m4.current
        exact .of_micros m4 (ih _ _ _ B4 (by rwa [hcur]) (by rwa [hv4]) hs)
    · cases hs
      exact .refl B

theorem pipeArgsOk_valid {idx : ℤ} {addr length : ℕ} (h : pipeArgsOk idx addr length s = true) :
    0 ≤ idx ∧ (s.pipes idx.toNat).valid := by
  simp only [pipeArgsOk, Bool.and_eq_true, decide_eq_true_eq] at h
  exact ⟨h.1.1.1.1, h.1.1.2⟩

theorem ends_pipeGive (B : Busy c s q) (ht : ∃ i, s.current c = .pcb i) {idx : ℤ} {src length : ℕ}
    (hs : sysPipeGivePages c idx src length s = some (o, s')) :
    Ends c (Call.pipeGive idx src length).about s q o s' := by
  rw [sysPipeGivePages] at hs
  split_ifs at hs with ha
  · cases hs
    exact .refl B
  · obtain ⟨h0, hv⟩ := pipeArgsOk_valid (by simpa using ha)
    exact ends_pipeGiveLoop (Or.inl rfl) (Or.inr (.toNat h0)) _ _ _ _ B ht hv hs

theorem ends_pipeTake (B : Busy c s q) (ht : ∃ i, s.current c = .pcb i) {idx : ℤ} {dst length : ℕ}
    (hs : sysPipeTakePages c idx dst length s = some (o, s')) :
    Ends c (Call.pipeTake idx dst length).about s q o s' := by
  rw [sysPipeTakePages] at hs
  split_ifs at hs with ha
  · cases hs
    exact .refl B
  · obtain ⟨h0, hv⟩ := pipeArgsOk_valid (by simpa using ha)
    exact ends_pipeTakeLoop (Or.inl rfl) (Or.inr (.toNat h0)) _ _ _ _ B ht hv hs

end

end RiscvKernel.Sched
