import RiscvKernel.Sched.Lifecycle

/-!
# Steps of the kernel

A step of a CPU is a sequence of small steps that ends with the return to user mode or with a switch by
`do_scheduler`. The invariant `Good` is kept by every step in which `clean_zombie` finds nobody to end
and `do_exec`, if called, succeeds.
-/

namespace RiscvKernel.Sched

open Lib Mm

variable {c now i : ℕ} {e : Env} {P : Obj → Prop} {o : Out} {s s' s1 : Kernel} {q q1 : Queues}
  {t : Task} {h : Head} {call : Call} {point : Point} {a : Act}

/-! ## Where a call goes on after do_scheduler -/

theorem mboxSendLoop_point {length : ℤ} {data : ℕ → Byte} :
    ∀ (fuel : ℕ) (sent : ℤ) (pin : Pin) (s : Kernel),
      mboxSendLoop c i length data fuel sent pin s = some (.sched point, s') →
      ∃ sent' pin', point = .send sent' pin' := by
  intro fuel
  induction fuel with
  | zero => intro sent pin s hs; cases hs
  | succ fuel ih =>
    intro sent pin s hs
    rw [mboxSendLoop] at hs
    dsimp only at hs
    split_ifs at hs
    · simp only [Option.bind_eq_bind, Option.bind_eq_some_iff] at hs
      obtain ⟨m, -, ⟨ok, pin', s2⟩, -, hs⟩ := hs
      cases ok with
      | false => cases hs
      | true =>
        simp only [Bool.not_true, Bool.false_eq_true, if_false, Option.bind_eq_some_iff] at hs
        obtain ⟨s3, -, hs⟩ := hs
        exact ih _ _ _ hs
    · cases hs
      exact ⟨sent, pin, rfl⟩
    · cases hs

theorem mboxRecvLoop_point {length : ℤ} :
    ∀ (fuel : ℕ) (read : ℤ) (pin : Pin) (s : Kernel),
      mboxRecvLoop c i length fuel read pin s = some (.sched point, s') →
      ∃ read' pin', point = .recv read' pin' := by
  intro fuel
  induction fuel with
  | zero => intro read pin s hs; cases hs
  | succ fuel ih =>
    intro read pin s hs
    rw [mboxRecvLoop] at hs
    dsimp only at hs
    split_ifs at hs
    · simp only [Option.bind_eq_bind, Option.bind_eq_some_iff] at hs
      obtain ⟨⟨bytes, m⟩, -, ⟨ok, pin', s2⟩, -, hs⟩ := hs
      cases ok with
      | false => cases hs
      | true =>
        simp only [Bool.not_true, Bool.false_eq_true, if_false, Option.bind_eq_some_iff] at hs
        obtain ⟨s3, -, hs⟩ := hs
        exact ih _ _ _ hs
    · cases hs
      exact ⟨read, pin, rfl⟩
    · cases hs

theorem pipeGiveLoop_point {src length : ℕ} :
    ∀ (fuel : ℕ) (done : ℤ) (s : Kernel),
      pipeGiveLoop c i src length fuel done s = some (.sched point, s') → ∃ done', point = .give done' := by
  intro fuel
  induction fuel with
  | zero => intro done s hs; cases hs
  | succ fuel ih =>
    intro done s hs
    rw [pipeGiveLoop] at hs
    split_ifs at hs
    · cases hs
      exact ⟨done, rfl⟩
    · simp only [Option.bind_eq_bind, Option.bind_eq_some_iff] at hs
      obtain ⟨⟨pa, m⟩, -, hs⟩ := hs
      cases pa with
      | none => cases hs
      | some pa =>
        simp only [Option.bind_eq_some_iff] at hs
        obtain ⟨s3, -, hs⟩ := hs
        exact ih _ _ hs
    · cases hs

theorem pipeTakeLoop_point {dst length : ℕ} :
    ∀ (fuel : ℕ) (done : ℤ) (s : Kernel),
      pipeTakeLoop c i dst length fuel done s = some (.sched point, s') → ∃ done', point = .take done' := by
  intro fuel
  induction fuel with
  | zero => intro done s hs; cases hs
  | succ fuel ih =>
    intro done s hs
    rw [pipeTakeLoop] at hs
    split_ifs at hs
    · cases hs
      exact ⟨done, rfl⟩
    · simp only [Option.bind_eq_bind, Option.bind_eq_some_iff] at hs
      obtain ⟨⟨ok, m⟩, -, hs⟩ := hs
      cases ok with
      | false => cases hs
      | true =>
        simp only [Bool.not_true, Bool.false_eq_true, if_false, Option.bind_eq_some_iff] at hs
        obtain ⟨s3, -, hs⟩ := hs
        exact ih _ _ hs
    · cases hs

theorem doMutexLockAcquire_point {idx : ℤ} (hs : doMutexLockAcquire c idx s = some (.sched point, s')) :
    point = .ret 0 := by
  rcases index_cases idx lockNum with hi | ⟨i, hi, rfl⟩
  · rw [doMutexLockAcquire, if_pos hi] at hs
    cases hs
  cases hl : (s.mlocks i).lock with
  | locked => rw [doMutexLockAcquire_spin hi hl] at hs; cases hs
  | unlocked =>
    cases hst : (s.mlocks i).status with
    | unlocked => rw [doMutexLockAcquire_free hi hl hst] at hs; cases hs
    | locked => rw [doMutexLockAcquire_held hi hl hst] at hs; cases hs; rfl

theorem doConditionWait_point {cond mutex : ℤ}
    (hs : doConditionWait c cond mutex s = some (.sched point, s')) :
    point = .relock mutex ∧ 0 ≤ cond ∧ cond < conditionNum := by
  rw [doConditionWait] at hs
  split_ifs at hs with hi
  · cases hs
  · cases hs
  · simp only [Option.bind_eq_bind, Option.bind_eq_some_iff] at hs
    obtain ⟨s1, -, s2, -, hs⟩ := hs
    cases hs
    exact ⟨rfl, by omega, by omega⟩

theorem doBarrierWait_point {idx : ℤ} (hs : doBarrierWait c idx s = some (.sched point, s')) :
    point = .ret 0 := by
  rw [doBarrierWait] at hs
  split_ifs at hs
  · cases hs
  · simp only [Option.bind_eq_bind, Option.bind_eq_some_iff] at hs
    obtain ⟨s1, -, hs⟩ := hs
    split_ifs at hs
    · simp only [Option.bind_eq_some_iff] at hs
      obtain ⟨s2, -, hs⟩ := hs
      cases hs
    · cases hs
      rfl

theorem doMboxSend_point {idx length : ℤ} {msg : ℕ} {data : ℕ → Byte}
    (hs : doMboxSend c idx msg length data s = some (.sched point, s')) :
    (0 ≤ idx ∧ idx < mboxNum) ∧ ∃ sent pin, point = .send sent pin := by
  rw [doMboxSend] at hs
  split_ifs at hs with hi
  · cases hs
  · cases hs
  · simp only [Option.bind_eq_bind, Option.bind_eq_some_iff] at hs
    obtain ⟨⟨pin, s1⟩, -, s2, -, hs⟩ := hs
    exact ⟨⟨by omega, by omega⟩, mboxSendLoop_point _ _ _ _ hs⟩

theorem doMboxRecv_point {idx length : ℤ} {msg : ℕ}
    (hs : doMboxRecv c idx msg length s = some (.sched point, s')) :
    (0 ≤ idx ∧ idx < mboxNum) ∧ ∃ read pin, point = .recv read pin := by
  rw [doMboxRecv] at hs
  split_ifs at hs with hi
  · cases hs
  · cases hs
  · simp only [Option.bind_eq_bind, Option.bind_eq_some_iff] at hs
    obtain ⟨⟨pin, s1⟩, -, s2, -, hs⟩ := hs
    exact ⟨⟨by omega, by omega⟩, mboxRecvLoop_point _ _ _ _ hs⟩

theorem sysPipeGivePages_point {idx : ℤ} {src length : ℕ}
    (hs : sysPipeGivePages c idx src length s = some (.sched point, s')) :
    (0 ≤ idx ∧ (s.pipes idx.toNat).valid) ∧ ∃ done, point = .give done := by
  rw [sysPipeGivePages] at hs
  split_ifs at hs with ha
  · cases hs
  · exact ⟨pipeArgsOk_valid (by simpa using ha), pipeGiveLoop_point _ _ _ hs⟩

theorem sysPipeTakePages_point {idx : ℤ} {dst length : ℕ}
    (hs : sysPipeTakePages c idx dst length s = some (.sched point, s')) :
    (0 ≤ idx ∧ (s.pipes idx.toNat).valid) ∧ ∃ done, point = .take done := by
  rw [sysPipeTakePages] at hs
  split_ifs at hs with ha
  · cases hs
  · exact ⟨pipeArgsOk_valid (by simpa using ha), pipeTakeLoop_point _ _ _ hs⟩

/-- What a part of a call leads to. -/
structure Part (c : ℕ) (call : Call) (s : Kernel) (q : Queues) (o : Out) (s' : Kernel) : Prop where
  ends : Ends c call.about s q o s'
  fits : ∀ point, o = .sched point → Fits s' call point

/-- The process on CPU `c` is a process of the table, unless the call is one that the idle process may
make. -/
theorem Call.madeBy_pcb (hm : call.madeBy t) (h1 : call ≠ .timer) (h2 : ∀ name, call ≠ .exec name) :
    ∃ i, t = .pcb i := by
  cases t with
  | pcb i => exact ⟨i, rfl⟩
  | idle k => cases call <;> simp_all [Call.madeBy]

theorem Micros.pipe_valid {y z : Kernel × Queues} (hm : Micros c P y z) (hv : (y.1.pipes i).valid) :
    (z.1.pipes i).valid := by
  induction hm with
  | refl => exact hv
  | tail _ hs ih =>
    obtain ⟨⟨_, -, hm⟩, -⟩ := hs
    exact hm.pipe_valid i ih

/-- **Every call** up to its return or to `do_scheduler` consists of small steps. -/
theorem syscall_part (B : Busy c s q) (hm : call.madeBy (s.current c)) (h0 : 0 < s.processId)
    (hx : ∀ name, call = .exec name → (doExec c name s).1 ≠ 0)
    (hs : syscall c e s call = some (o, s')) : Part c call s q o s' := by
  have ht := Call.madeBy_pcb hm
  cases call with
  | timer => cases hs; exact ⟨.refl B, fun _ h => by cases h; trivial⟩
  | yield => cases hs; exact ⟨.refl B, fun _ h => by cases h; trivial⟩
  | exec name => cases hs; exact ⟨ends_exec B h0 (hx name rfl), by simp⟩
  | exit => cases hs; exact ⟨.refl B, by simp⟩
  | sleep time =>
    have ht := ht (by simp) (by simp)
    cases hs
    exact ⟨ends_sleep B ht time, fun _ h => by cases h; trivial⟩
  | kill pid => cases hs; exact ⟨ends_kill B pid, by simp⟩
  | waitpid pid =>
    have ht := ht (by simp) (by simp)
    have hs : doWaitpid c pid s = (o, s') := Option.some.inj hs
    have he := ends_waitpid B ht pid
    rw [hs] at he
    refine ⟨he, fun p hp => ?_⟩
    unfold doWaitpid at hs
    subst hp
    split at hs <;> cases hs
    trivial
  | threadCreate => cases hs; exact ⟨ends_threadCreate B h0, by simp⟩
  | threadJoin pid =>
    have ht := ht (by simp) (by simp)
    have hs : doThreadJoin c pid s = (o, s') := Option.some.inj hs
    have he := ends_threadJoin B ht pid
    rw [hs] at he
    refine ⟨he, fun p hp => ?_⟩
    unfold doThreadJoin at hs
    subst hp
    split at hs
    · cases hs
    · split_ifs at hs
      · cases hs
      · cases hs
        trivial
  | mutexInit key => cases hs; exact ⟨ends_mutexInit B key, by simp⟩
  | mutexAcquire idx =>
    have ht := ht (by simp) (by simp)
    refine ⟨ends_mutexAcquire B ht (fun _ h => h) hs, fun p hp => ?_⟩
    subst hp
    rw [doMutexLockAcquire_point hs]
    trivial
  | mutexRelease idx =>
    obtain ⟨s1, h1, h2⟩ := Option.map_eq_some_iff.1 hs
    cases h2
    exact ⟨ends_mutexRelease B (fun _ h => h) h1, by simp⟩
  | condInit key => cases hs; exact ⟨ends_condInit B key, by simp⟩
  | condWait cond mutex =>
    have ht := ht (by simp) (by simp)
    refine ⟨ends_condWait B ht hs, fun p hp => ?_⟩
    subst hp
    obtain ⟨rfl, hi⟩ := doConditionWait_point hs
    exact ⟨rfl, hi⟩
  | condSignal idx =>
    obtain ⟨s1, h1, h2⟩ := Option.map_eq_some_iff.1 hs
    cases h2
    exact ⟨ends_condSignal B h1, by simp⟩
  | condBroadcast idx =>
    obtain ⟨s1, h1, h2⟩ := Option.map_eq_some_iff.1 hs
    cases h2
    exact ⟨ends_condBroadcast B h1, by simp⟩
  | condDestroy idx =>
    obtain ⟨s1, h1, h2⟩ := Option.map_eq_some_iff.1 hs
    cases h2
    exact ⟨ends_condDestroy B h1, by simp⟩
  | barrierInit key goal => cases hs; exact ⟨ends_barrierInit B key goal, by simp⟩
  | barrierWait idx =>
    have ht := ht (by simp) (by simp)
    refine ⟨ends_barrierWait B ht hs, fun p hp => ?_⟩
    subst hp
    rw [doBarrierWait_point hs]
    trivial
  | barrierDestroy idx =>
    obtain ⟨s1, h1, h2⟩ := Option.map_eq_some_iff.1 hs
    cases h2
    exact ⟨ends_barrierDestroy B h1, by simp⟩
  | mboxOpen name =>
    obtain ⟨r, h1, h2⟩ := Option.map_eq_some_iff.1 hs
    cases h2
    exact ⟨ends_mboxOpen B h1, by simp⟩
  | mboxClose idx =>
    obtain ⟨s1, h1, h2⟩ := Option.map_eq_some_iff.1 hs
    cases h2
    exact ⟨ends_mboxClose B h1, by simp⟩
  | mboxSend idx msg length =>
    have ht := ht (by simp) (by simp)
    refine ⟨ends_mboxSend B ht hs, fun p hp => ?_⟩
    subst hp
    obtain ⟨h0, sent, pin, rfl⟩ := doMboxSend_point hs
    exact h0
  | mboxRecv idx msg length =>
    have ht := ht (by simp) (by simp)
    refine ⟨ends_mboxRecv B ht hs, fun p hp => ?_⟩
    subst hp
    obtain ⟨h0, read, pin, rfl⟩ := doMboxRecv_point hs
    exact h0
  | pipeOpen name =>
    obtain ⟨r, h1, h2⟩ := Option.map_eq_some_iff.1 hs
    cases h2
    exact ⟨ends_pipeOpen B h1, by simp⟩
  | pipeGive idx src length =>
    have ht := ht (by simp) (by simp)
    have he := ends_pipeGive B ht hs
    refine ⟨he, fun p hp => ?_⟩
    subst hp
    obtain ⟨⟨h0, hv⟩, done, rfl⟩ := sysPipeGivePages_point hs
    obtain ⟨q', hmi, -⟩ := he
    exact ⟨h0, hmi.pipe_valid (y := (s, q)) hv⟩
  | pipeTake idx dst length =>
    have ht := ht (by simp) (by simp)
    have he := ends_pipeTake B ht hs
    refine ⟨he, fun p hp => ?_⟩
    subst hp
    obtain ⟨⟨h0, hv⟩, done, rfl⟩ := sysPipeTakePages_point hs
    obtain ⟨q', hmi, -⟩ := he
    exact ⟨h0, hmi.pipe_valid (y := (s, q)) hv⟩

/-- **What a call does after do_scheduler** consists of small steps. -/
theorem resume_part (B : Busy c s q) (hm : call.madeBy (s.current c)) (hf : Fits s call point)
    (hs : resume c e s call point = some (o, s')) : Part c call s q o s' := by
  have ht := Call.madeBy_pcb hm
  cases point with
  | ret r => cases hs; exact ⟨.refl B, by simp⟩
  | relock mutex =>
    cases call <;> try exact hf.elim
    rename_i cond m
    have hp := ht (by simp) (by simp)
    obtain ⟨rfl, -⟩ := hf
    refine ⟨ends_mutexAcquire B hp (fun _ h => Or.inr h) hs, fun p hp => ?_⟩
    subst hp
    rw [doMutexLockAcquire_point hs]
    trivial
  | send sent pin =>
    cases call <;> try exact hf.elim
    rename_i idx msg length
    have ht := ht (by simp) (by simp)
    refine ⟨ends_resumeSend B ht (Or.inl rfl) (Or.inr (.toNat hf.1)) hs, fun p hp => ?_⟩
    subst hp
    obtain ⟨s1, -, hs⟩ := Option.bind_eq_some_iff.1 hs
    obtain ⟨sent', pin', rfl⟩ := mboxSendLoop_point _ _ _ _ hs
    exact hf
  | recv read pin =>
    cases call <;> try exact hf.elim
    rename_i idx msg length
    have ht := ht (by simp) (by simp)
    refine ⟨ends_resumeRecv B ht (Or.inl rfl) (Or.inr (.toNat hf.1)) hs, fun p hp => ?_⟩
    subst hp
    obtain ⟨s1, -, hs⟩ := Option.bind_eq_some_iff.1 hs
    obtain ⟨read', pin', rfl⟩ := mboxRecvLoop_point _ _ _ _ hs
    exact hf
  | give done =>
    cases call <;> try exact hf.elim
    rename_i idx src length
    have ht := ht (by simp) (by simp)
    have he := ends_pipeGiveLoop (P := (Call.pipeGive idx src length).about) (Or.inl rfl)
      (Or.inr (.toNat hf.1)) _ _ _ _ B ht hf.2 hs
    refine ⟨he, fun p hp => ?_⟩
    subst hp
    obtain ⟨done', rfl⟩ := pipeGiveLoop_point _ _ _ hs
    obtain ⟨q', hmi, -⟩ := he
    exact ⟨hf.1, hmi.pipe_valid (y := (s, q)) hf.2⟩
  | take done =>
    cases call <;> try exact hf.elim
    rename_i idx dst length
    have ht := ht (by simp) (by simp)
    have he := ends_pipeTakeLoop (P := (Call.pipeTake idx dst length).about) (Or.inl rfl)
      (Or.inr (.toNat hf.1)) _ _ _ _ B ht hf.2 hs
    refine ⟨he, fun p hp => ?_⟩
    subst hp
    obtain ⟨done', rfl⟩ := pipeTakeLoop_point _ _ _ hs
    obtain ⟨q', hmi, -⟩ := he
    exact ⟨hf.1, hmi.pipe_valid (y := (s, q)) hf.2⟩

/-! ## The parts of a step -/

/-- `do_exit` up to `do_scheduler`. -/
def ending (c : ℕ) (s : Kernel) : Option (Kernel ⊕ Kernel) :=
  (exitCurrent c s).map fun s => .inr (s.setCont (s.current c) (.inCall .exit (.ret 0)))

/-- What follows a part of a call, up to the return to user mode or to `do_scheduler`. -/
def following (c : ℕ) (call : Call) : Out × Kernel → Option (Kernel ⊕ Kernel)
  | (.ret r, s) => some (.inl (leave c (s.addLog (.ret (s.current c) call r))))
  | (.sched point, s) => some (.inr (s.setCont (s.current c) (.inCall call point)))
  | (.exit, s) => ending c s

/-- The state in which a call starts. -/
def entered (c : ℕ) (call : Call) (s : Kernel) : Kernel :=
  { s with kernelLock := some c }.addLog (.enter (s.current c) call)

/-- A step up to the return to user mode (`inl`) or to `do_scheduler` (`inr`). -/
def segment (s : Kernel) (a : Act) : Option (Kernel ⊕ Kernel) :=
  match a.move with
  | .enter call =>
    if ((entered a.cpu call s).cur a.cpu).killed then ending a.cpu (entered a.cpu call s)
    else (syscall a.cpu a.env (entered a.cpu call s) call).bind (following a.cpu call)
  | .go =>
    match s.cont (s.current a.cpu) with
    | .inCall call point =>
      if (s.cur a.cpu).killed then ending a.cpu s
      else (resume a.cpu a.env s call point).bind (following a.cpu call)
    | .fresh => some (.inl (leave a.cpu s))
    | .user => none

theorem doExit_eq : doExit c now s =
    (ending c s).bind (Sum.elim some (doScheduler c now)) := by
  rw [doExit, ending]
  cases exitCurrent c s <;> rfl

theorem finish_eq (r : Out × Kernel) : finish c e call r =
    (following c call r).bind (Sum.elim some (doScheduler c e.now)) := by
  obtain ⟨o, s⟩ := r
  cases o with
  | ret r => rfl
  | sched point => rfl
  | exit => exact doExit_eq

/-- A step is its first part and then `do_scheduler`, unless it returns to user mode. -/
theorem step_eq : step s a = (segment s a).bind (Sum.elim some (doScheduler a.cpu a.env.now)) := by
  have hb : ∀ (r : Option (Out × Kernel)) (call : Call), r.bind (finish a.cpu a.env call) =
      (r.bind (following a.cpu call)).bind (Sum.elim some (doScheduler a.cpu a.env.now)) := by
    intro r call
    rw [Option.bind_assoc]
    exact congrArg r.bind (funext finish_eq)
  obtain ⟨c, e, move⟩ := a
  cases move with
  | enter call =>
    show (if ((entered c call s).cur c).killed then _ else _) = _
    simp only [segment]
    split_ifs
    · exact doExit_eq
    · exact hb _ _
  | go =>
    simp only [step, segment]
    cases s.cont (s.current c) with
    | inCall call point =>
      dsimp only
      split_ifs
      · exact doExit_eq
      · exact hb _ _
    | fresh => rfl
    | user => rfl

/-- What a step in the call is about; the process may end in any of them. -/
def reach (k : Option Call) (o : Obj) : Prop := ∃ call, k = some call ∧ (call.about o ∨ Call.exit.about o)

/-- How a step in the call `k` goes from `s0` on up to the return to user mode or to `do_scheduler`:
through small steps, after which the process runs and leaves the kernel, or is going to be switched away
from. -/
inductive Outcome (c : ℕ) (k : Option Call) (s0 : Kernel) (q : Queues) : Kernel ⊕ Kernel → Prop
  | leave {s1 : Kernel} {q1 : Queues} (hm : Micros c (reach k) (s0, q) (s1, q1))
    (hr : (s1.cur c).status = .running) {s2 : Kernel}
    (hs : s2 = s1 ∨ ∃ call r, k = some call ∧ s2 = s1.addLog (.ret (s1.current c) call r)) :
    Outcome c k s0 q (.inl (leave c s2))
  | switch {s1 : Kernel} {q1 : Queues} (hm : Micros c (reach k) (s0, q) (s1, q1)) {call : Call}
    {point : Point} (hc : call.madeBy (s1.current c)) (hf : Fits s1 call point)
    (hw : (s1.cur c).status = .exited → q1 (.wait (s1.current c)) = []) :
    Outcome c k s0 q (.inr (s1.setCont (s1.current c) (.inCall call point)))

/-- The process ends in the middle of a call. -/
theorem ending_outcome (H : Mid (some c) s q) (hm : Micros c call.about (s, q) (s1, q1))
    (hr : (s1.cur c).status = .running) (ht : ∃ i, s1.current c = .pcb i) {r : Kernel ⊕ Kernel}
    (hs : ending c s1 = some r) : Outcome c (some call) s q r := by
  obtain ⟨s2, h1, rfl⟩ := Option.map_eq_some_iff.1 hs
  obtain ⟨q2, hm2, -, hw⟩ := exitCurrent_micros (hm.mid H) hr ht h1
  have hcur : s2.current = s1.current := hm2.current
  obtain ⟨i, ht⟩ := ht
  have hm' : Micros c (reach (some call)) (s, q) (s2, q2) :=
    (hm.mono fun _ h => ⟨call, rfl, Or.inl h⟩).trans (hm2.mono fun _ h => ⟨call, rfl, Or.inr h⟩)
  refine .switch hm' ?_ trivial fun _ => hw
  rw [hcur, ht]
  rfl

theorem following_outcome (H : Mid (some c) s q) (hc : call.madeBy (s.current c))
    (hp : Part c call s q o s') {r : Kernel ⊕ Kernel} (ht : o = .exit → ∃ i, s.current c = .pcb i)
    (hs : following c call (o, s') = some r) : Outcome c (some call) s q r := by
  obtain ⟨q', hm, hst⟩ := hp.ends
  have hm' : Micros c (reach (some call)) (s, q) (s', q') := hm.mono fun _ h => ⟨call, rfl, Or.inl h⟩
  have hcur : s'.current = s.current := hm.current
  cases o with
  | ret v =>
    cases hs
    refine .leave hm' ?_ (Or.inr ⟨call, v, rfl, rfl⟩)
    exact hst.resolve_right fun h => by simp at h
  | sched point =>
    cases hs
    refine .switch hm' (by rwa [hcur]) (hp.fits point rfl) fun hx => ?_
    rcases hst with h1 | ⟨-, h1⟩ <;> rw [h1] at hx <;> cases hx
  | exit =>
    have hr : (s'.cur c).status = .running := hst.resolve_right fun h => by simp at h
    exact ending_outcome H hm hr (by rw [hcur]; exact ht rfl) hs

/-! ## The invariant over a step -/

/-- Events other than those of the queues. -/
def Event.neutral : Event → Bool
  | .block _ _ => false
  | .wake _ => false
  | _ => true

theorem waiting_neutral {ev : Event} (hn : ev.neutral) (log : List Event) :
    waiting h (log ++ [ev]) = waiting h log := by
  rw [waiting_append]
  cases ev <;> first | rfl | cases hn

section

variable {x : Option ℕ}

theorem Good.weaken (H : Good none s q) : Good x s q := { H with mid := H.mid.weaken }

theorem Good.settle (H : Good (some c) s q) (hr : (s.cur c).status = .running) : Good none s q :=
  { H with mid := H.mid.settle hr }

theorem Good.addLog (H : Good x s q) (ev : Event) (hn : ev.neutral) : Good x (s.addLog ev) q :=
  { H with
    mid := H.mid
    log := fun h h1 h2 => (waiting_neutral hn s.log).trans (H.log h h1 h2)
    fifo := fun h h1 h2 => (H.fifo h h1 h2).append fun t ht => by rw [ht] at hn; cases hn
    cont := H.cont }

theorem Good.setLock (H : Good x s q) (k : Option ℕ) : Good x { s with kernelLock := k } q :=
  { H with mid := H.mid, cont := H.cont }

theorem Good.setCont (H : Good x s q) {k : Cont}
    (hk : ∀ call point, k = .inCall call point → call.madeBy t ∧ Fits s call point) :
    Good x (s.setCont t k) q := by
  refine { H with mid := H.mid, cont := fun u call point hu => ?_ }
  have hu : Function.update s.cont t k u = .inCall call point := hu
  rw [Function.update_apply] at hu
  split_ifs at hu with e
  · rw [e]
    exact hk call point hu
  · exact H.cont u call point hu

theorem Good.leave (H : Good x s q) : Good x (leave c s) q :=
  (H.setCont (t := s.current c) (k := .user) (by simp)).setLock none

theorem Good.enter (H : Good x s q) : Good x (entered c call s) q :=
  (H.setLock (some c)).addLog (.enter (s.current c) call) rfl

/-- The scheduler keeps the invariant. -/
theorem Good.switch {q' : Queues} (H : Good (some c) s q) (H' : Mid none s' q')
    (S : Switched c s s' q q') : Good none s' q' := by
  have hpid : ∀ t, (s'.pcb t).pid = (s.pcb t).pid := fun t => by rw [S.pcb t]
  obtain ⟨ts, hl, hts⟩ := S.log
  have hother : ∀ h, h ≠ .sleep → ∀ t ∈ ts, t ∉ q h :=
    fun h h2 t ht hth => h2 (H.mid.rings.disj hth (hts ht))
  refine ⟨H', fun h h1 h2 => ?_, fun h h1 h2 => ?_, ?_, fun j hj => ?_, fun j k hj hk he => ?_,
    fun b => ?_, fun u call point hu => ?_⟩
  · rw [hl, waiting_append, H.log h h1 h2, S.queue h h1 h2, waiting_wake _ _ _ (hother h h2)]
  · rw [hl]
    refine (H.fifo h h1 h2).wake_other ?_
    rw [H.log h h1 h2]
    exact hother h h2
  · rw [S.processId]
    exact H.processId
  · rw [hpid, S.processId]
    exact H.pid j fun e => hj ((S.exited _).2 e)
  · rw [hpid, hpid] at he
    exact H.distinct j k (fun e => hj ((S.exited _).2 e)) (fun e => hk ((S.exited _).2 e)) he
  · rw [S.pcb]
    exact H.idle b
  · rw [S.cont] at hu
    obtain ⟨h1, h2⟩ := H.cont u call point hu
    exact ⟨h1, h2.mono fun i hv => by rwa [S.pipes]⟩

end

/-- The program that a step starts. -/
def Move.program : Move → Option CStr
  | .enter (.exec name) => some name
  | _ => none

/-- The program exists and there is room for it, if the step is a call of `do_exec`. -/
def ExecOk (s : Kernel) (a : Act) : Prop := ∀ name ∈ a.move.program, (doExec a.cpu name s).1 ≠ 0

instance (s : Kernel) (a : Act) : Decidable (ExecOk s a) :=
  inferInstanceAs (Decidable (∀ name ∈ a.move.program, _))

/-- What the state is at the beginning of the part of a step in the kernel, and which call the part
belongs to. -/
inductive Begins (s : Kernel) : Act → Kernel → Option Call → Prop
  | enter (c : ℕ) (e : Env) (call : Call) :
    Begins s ⟨c, e, .enter call⟩ (entered c call s) (some call)
  | go (c : ℕ) (e : Env) (call : Call) (point : Point)
    (hc : s.cont (s.current c) = .inCall call point) : Begins s ⟨c, e, .go⟩ s (some call)
  | fresh (c : ℕ) (e : Env) (hc : s.cont (s.current c) = .fresh) : Begins s ⟨c, e, .go⟩ s none

theorem Good.cur_pcb (H : Good none s q) (hk : (s.cur c).killed) : ∃ i, s.current c = .pcb i := by
  cases h : s.current c with
  | pcb i => exact ⟨i, rfl⟩
  | idle k =>
    rw [Kernel.cur, h, H.idle k] at hk
    cases hk

theorem Good.busy (H : Good none s q) (hk : (s.cur c).killed = false) : Busy c s q :=
  ⟨H.mid.weaken, H.mid.running (by simp), hk⟩

/-- Only processes of the table end themselves. -/
theorem syscall_exit (hm : call.madeBy t) (hs : syscall c e s call = some (.exit, s')) :
    ∃ i, t = .pcb i := by
  refine Call.madeBy_pcb hm ?_ ?_
  · rintro rfl
    cases hs
  · rintro name rfl
    cases hs

theorem resume_exit (hm : call.madeBy t) (hf : Fits s call point)
    (hs : resume c e s call point = some (.exit, s')) : ∃ i, t = .pcb i := by
  refine Call.madeBy_pcb hm ?_ ?_
  · rintro rfl
    cases point <;> first | exact hf.elim | cases hs
  · rintro name rfl
    cases point <;> first | exact hf.elim | cases hs

theorem doExec_entered (name : CStr) : (doExec c name (entered c call s)).1 = (doExec c name s).1 := by
  have hf : freeSlot (entered c call s) = freeSlot s := rfl
  have hm : (entered c call s).memory = s.memory := rfl
  rw [doExec, doExec, hf, hm]
  cases freeSlot s with
  | none => rfl
  | some t =>
    dsimp only
    split_ifs <;> rfl

/-- **A step in the kernel** is made of small steps. -/
theorem segment_outcome (H : Good none s q) (he : Enabled s a) (hx : ExecOk s a) {r : Kernel ⊕ Kernel}
    (hs : segment s a = some r) : ∃ s0 k, Begins s a s0 k ∧ Outcome a.cpu k s0 q r := by
  obtain ⟨c, e, move⟩ := a
  cases move with
  | enter call =>
    refine ⟨_, _, .enter c e call, ?_⟩
    obtain ⟨-, -, hm⟩ := he
    have H0 : Good none (entered c call s) q := H.enter
    simp only [segment] at hs
    split_ifs at hs with hk
    · exact ending_outcome H0.mid.weaken .refl (H0.mid.running (by simp)) (H0.cur_pcb hk) hs
    · obtain ⟨⟨o, s1⟩, h1, h2⟩ := Option.bind_eq_some_iff.1 hs
      have B := H0.busy (c := c) (by simpa using hk)
      have hex : ∀ name, call = .exec name → (doExec c name (entered c call s)).1 ≠ 0 := by
        rintro name rfl
        rw [doExec_entered]
        exact hx name rfl
      have hp := syscall_part B hm H0.processId hex h1
      exact following_outcome B.mid hm hp (by rintro rfl; exact syscall_exit hm h1) h2
  | go =>
    simp only [segment] at hs
    cases hc : s.cont (s.current c) with
    | user => rw [hc] at hs; cases hs
    | fresh =>
      rw [hc] at hs
      cases hs
      exact ⟨_, _, .fresh c e hc, .leave .refl (H.mid.running (by simp)) (Or.inl rfl)⟩
    | inCall call point =>
      refine ⟨_, _, .go c e call point hc, ?_⟩
      rw [hc] at hs
      dsimp only at hs
      obtain ⟨hm, hf⟩ := H.cont _ call point hc
      split_ifs at hs with hk
      · exact ending_outcome H.mid.weaken .refl (H.mid.running (by simp)) (H.cur_pcb hk) hs
      · obtain ⟨⟨o, s1⟩, h1, h2⟩ := Option.bind_eq_some_iff.1 hs
        have B := H.busy (c := c) (by simpa using hk)
        have hp := resume_part B hm hf h1
        exact following_outcome B.mid hm hp (by rintro rfl; exact resume_exit hm hf h1) h2

theorem Begins.good {s0 : Kernel} {k : Option Call} (hb : Begins s a s0 k) (H : Good none s q) : Good none s0 q := by
  cases hb with
  | enter => exact H.enter
  | go => exact H
  | fresh => exact H

/-- The state of a step before `do_scheduler`. -/
theorem Outcome.good_switch {k : Option Call} (ho : Outcome c k s q (.inr s1)) (H : Good none s q) :
    ∃ q1, Good (some c) s1 q1 ∧ ((s1.cur c).status = .exited → q1 (.wait (s1.current c)) = []) := by
  cases ho with
  | switch hm hc hf hw =>
    refine ⟨_, (hm.good H.weaken).setCont (fun call point h => ?_), hw⟩
    cases h
    exact ⟨hc, hf⟩

theorem Outcome.good_leave {k : Option Call} (ho : Outcome c k s q (.inl s')) (H : Good none s q) :
    ∃ q', Good none s' q' := by
  cases ho with
  | leave hm hr hs =>
    have H1 := (hm.good H.weaken).settle hr
    rcases hs with rfl | ⟨call, r, -, rfl⟩
    · exact ⟨_, H1.leave⟩
    · exact ⟨_, (H1.addLog (.ret _ call r) rfl).leave⟩

theorem Outcome.rings {k : Option Call} {r : Kernel ⊕ Kernel} (ho : Outcome c k s q r) (H : Good none s q) :
    ∃ q', Rings (r.elim id id).links q' := by
  cases r with
  | inl s1 =>
    obtain ⟨q', H'⟩ := ho.good_leave H
    exact ⟨q', H'.mid.rings⟩
  | inr s1 =>
    obtain ⟨q', H', -⟩ := ho.good_switch H
    exact ⟨q', H'.mid.rings⟩

/-- `clean_zombie` finds nobody to end in this step. -/
def NoReap (s : Kernel) (a : Act) : Prop := ∀ s1, segment s a = some (.inr s1) → ¬ Reaps a.env.now s1

instance (s : Kernel) (a : Act) : Decidable (NoReap s a) :=
  match h : segment s a with
  | none => isTrue fun _ h1 => by rw [h] at h1; cases h1
  | some (.inl _) => isTrue fun _ h1 => by rw [h] at h1; cases h1
  | some (.inr s1) =>
    decidable_of_iff (¬ Reaps a.env.now s1)
      ⟨fun hr s2 h2 => by rw [h] at h2; cases h2; exact hr, fun hr => hr s1 h⟩

/-- **A step keeps the invariant** unless it ends a killed process that is blocked. -/
theorem step_good (H : Good none s q) (he : Enabled s a) (hx : ExecOk s a) (hz : NoReap s a)
    (hs : step s a = some s') : ∃ q', Good none s' q' := by
  rw [step_eq] at hs
  obtain ⟨r, h1, h2⟩ := Option.bind_eq_some_iff.1 hs
  obtain ⟨s0, k, hb, ho⟩ := segment_outcome H he hx h1
  cases r with
  | inl s1 =>
    cases h2
    exact ho.good_leave (hb.good H)
  | inr s1 =>
    obtain ⟨q1, H1, hw⟩ := ho.good_switch (hb.good H)
    obtain ⟨s2, q2, h3, H2, S⟩ := H1.mid.doScheduler hw (hz s1 h1)
    have h2 : doScheduler a.cpu a.env.now s1 = some s' := h2
    rw [h3] at h2
    cases h2
    exact ⟨q2, H1.switch H2 S⟩

end RiscvKernel.Sched
