import RiscvKernel.Sched.Kernel

/-!
# Mutexes, condition variables and barriers

The functions of `lock.c`, `condition.c` and `barrier.c`. A spin lock that is held is never released
while another process waits for it, since the waiting CPU has the kernel lock: `spin_lock_acquire` then
does not return.
-/

namespace RiscvKernel.Sched

open Lib Mm

/-! ## Mutexes -/

/-- `spin_lock_acquire(&mlocks[i].lock)`. -/
def acquireMutexSpin (i : ℕ) (s : Kernel) : Option Kernel :=
  if (s.mlocks i).lock = .locked then none
  else some (s.setMutex i { s.mlocks i with lock := .locked })

def releaseMutexSpin (i : ℕ) (s : Kernel) : Kernel :=
  s.setMutex i { s.mlocks i with lock := .unlocked }

/-- `do_mutex_lock_init`. -/
def doMutexLockInit (key : ℤ) (s : Kernel) : ℤ × Kernel :=
  if key < 0 then (-1, s)
  else
    match scan (fun i => if key = (s.mlocks i).key then some i else none) 0 lockNum with
    | some i => (i, s)
    | none =>
      match scan (fun i => if (s.mlocks i).key = unused then some i else none) 0 lockNum with
      | some i => (i, s.setMutex i { s.mlocks i with key := key })
      | none => (-1, s)

/-- `do_mutex_lock_acquire` up to its return or to `do_scheduler`, after which it returns. -/
def doMutexLockAcquire (c : ℕ) (idx : ℤ) (s : Kernel) : Option (Out × Kernel) :=
  if idx < 0 ∨ lockNum ≤ idx then some (.ret 0, s)
  else do
    let i := idx.toNat
    let s ← acquireMutexSpin i s
    if (s.mlocks i).status = .locked then
      let s := doBlock (s.current c) (.mutex i) s
      return (.sched (.ret 0), releaseMutexSpin i s)
    else
      let s := s.setMutex i { s.mlocks i with status := .locked, pid := (s.cur c).pid }
      return (.ret 0, releaseMutexSpin i s)

/-- `do_mutex_lock_release`. -/
def doMutexLockRelease (c : ℕ) (idx : ℤ) (s : Kernel) : Option Kernel :=
  if idx < 0 ∨ lockNum ≤ idx then some s
  else do
    let i := idx.toNat
    let s ← acquireMutexSpin i s
    -- the early return keeps the spin lock
    if (s.cur c).pid ≠ (s.mlocks i).pid then return s
    else if !isEmptyQueue (.mutex i) s then
      let (next, s) ← dequeue (.mutex i) s
      let s := doUnblock next s
      let s := s.setMutex i { s.mlocks i with pid := (s.pcb next).pid }
      return releaseMutexSpin i s
    else
      let s := s.setMutex i { s.mlocks i with status := .unlocked, pid := 0, key := unused }
      return releaseMutexSpin i s

/-! ## Condition variables -/

def acquireConditionSpin (i : ℕ) (s : Kernel) : Option Kernel :=
  if (s.conditions i).lock = .locked then none
  else some (s.setCondition i { s.conditions i with lock := .locked })

def releaseConditionSpin (i : ℕ) (s : Kernel) : Kernel :=
  s.setCondition i { s.conditions i with lock := .unlocked }

/-- `do_condition_init`. -/
def doConditionInit (key : ℤ) (s : Kernel) : ℤ × Kernel :=
  if key < 0 then (-1, s)
  else
    match scan (fun i => if (s.conditions i).key = key then some i else none) 0 conditionNum with
    | some i => (i, s)
    | none =>
      match scan (fun i => if (s.conditions i).key = unused then some i else none) 0 conditionNum with
      | some i => (i, s.setCondition i { s.conditions i with key := key })
      | none => (-1, s)

/-- `do_condition_wait` up to `do_scheduler`; the woken process goes on with
`do_mutex_lock_acquire`. -/
def doConditionWait (c : ℕ) (condIdx mutexIdx : ℤ) (s : Kernel) : Option (Out × Kernel) :=
  if condIdx < 0 ∨ conditionNum ≤ condIdx then some (.ret 0, s)
  else if mutexIdx < 0 ∨ lockNum ≤ mutexIdx then some (.ret 0, s)
  else do
    let i := condIdx.toNat
    let s ← acquireConditionSpin i s
    let s := doBlock (s.current c) (.cond i) s
    let s ← doMutexLockRelease c mutexIdx s
    return (.sched (.relock mutexIdx), releaseConditionSpin i s)

/-- `do_condition_signal`. -/
def doConditionSignal (condIdx : ℤ) (s : Kernel) : Option Kernel :=
  if condIdx < 0 ∨ conditionNum ≤ condIdx then some s
  else do
    let i := condIdx.toNat
    let s ← acquireConditionSpin i s
    if !isEmptyQueue (.cond i) s then
      let (t, s) ← dequeue (.cond i) s
      return releaseConditionSpin i (doUnblock t s)
    else return releaseConditionSpin i s

/-- `do_condition_broadcast`. -/
def doConditionBroadcast (condIdx : ℤ) (s : Kernel) : Option Kernel :=
  if condIdx < 0 ∨ conditionNum ≤ condIdx then some s
  else do
    let i := condIdx.toNat
    let s ← acquireConditionSpin i s
    let s ← wakeup (.cond i) s
    return releaseConditionSpin i s

/-- `do_condition_destroy`. -/
def doConditionDestroy (condIdx : ℤ) (s : Kernel) : Option Kernel :=
  if condIdx < 0 ∨ conditionNum ≤ condIdx then some s
  else do
    let i := condIdx.toNat
    let s ← wakeupIf (.cond i) s
    return s.setCondition i { s.conditions i with key := unused }

/-! ## Barriers -/

def acquireBarrierSpin (i : ℕ) (s : Kernel) : Option Kernel :=
  if (s.barriers i).lock = .locked then none
  else some (s.setBarrier i { s.barriers i with lock := .locked })

def releaseBarrierSpin (i : ℕ) (s : Kernel) : Kernel :=
  s.setBarrier i { s.barriers i with lock := .unlocked }

/-- `do_barrier_init`. -/
def doBarrierInit (key goal : ℤ) (s : Kernel) : ℤ × Kernel :=
  if key < 0 then (-1, s)
  else if goal ≤ 0 then (-1, s)
  else
    match scan (fun i => if (s.barriers i).key = key then some i else none) 0 barrierNum with
    | some i => (i, s.setBarrier i { s.barriers i with goal := goal })
    | none =>
      match scan (fun i => if (s.barriers i).key = unused then some i else none) 0 barrierNum with
      | some i => (i, s.setBarrier i { s.barriers i with goal := goal, key := key })
      | none => (-1, s)

/-- `do_barrier_wait` up to its return or to `do_scheduler`, after which it returns. -/
def doBarrierWait (c : ℕ) (barIdx : ℤ) (s : Kernel) : Option (Out × Kernel) :=
  if barIdx < 0 ∨ barrierNum ≤ barIdx then some (.ret 0, s)
  else do
    let i := barIdx.toNat
    let s ← acquireBarrierSpin i s
    let s := s.setBarrier i { s.barriers i with arrived := (s.barriers i).arrived + 1 }
    if (s.barriers i).goal ≤ (s.barriers i).arrived then
      let s := s.setBarrier i { s.barriers i with arrived := 0 }
      let s ← wakeup (.barrier i) s
      return (.ret 0, releaseBarrierSpin i s)
    else
      let s := doBlock (s.current c) (.barrier i) s
      return (.sched (.ret 0), releaseBarrierSpin i s)

/-- `do_barrier_destroy`. -/
def doBarrierDestroy (barIdx : ℤ) (s : Kernel) : Option Kernel :=
  if barIdx < 0 ∨ barrierNum ≤ barIdx then some s
  else do
    let i := barIdx.toNat
    let s ← wakeupIf (.barrier i) s
    let s := s.setBarrier i { s.barriers i with key := unused, goal := 0, arrived := 0 }
    return initQueue (.inr (.barrier i)) s

end RiscvKernel.Sched
