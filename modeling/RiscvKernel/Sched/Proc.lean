import RiscvKernel.Sched.Locking
import RiscvKernel.Sched.Channels

/-!
# Processes and the scheduler

The functions of `proc.c` and `sched.c`. What they write on the stacks of a new process is left out, and
so are the names of processes.
-/

namespace RiscvKernel.Sched

open Lib Mm

/-! ## Creating processes -/

/-- `do_exec`: the pid, 0 if there is no free slot or no such program. -/
def doExec (c : ℕ) (name : CStr) (s : Kernel) : ℤ × Kernel :=
  match freeSlot s with
  | none => (0, s)
  | some t =>
    let pid := s.processId
    let (pgdirKva, m) := allocPage 1 s.memory
    let m := sharePgtable pgdirKva (pa2kva pgdirPa) m
    let s := { s with processId := s.processId + 1 }.setPcb t
      { s.pcb t with
        pid := pid
        threadGroupId := 0
        status := .ready
        killed := false
        mask := (s.cur c).mask
        dirInode := (s.cur c).dirInode
        pgdirKva := pgdirKva }
    let (entryPoint, m) := loadTaskImg name pgdirKva m
    if entryPoint = 0 then (0, s.setMemory (freePage pgdirKva m))
    else
      let (_, m) := allocPageHelper (userStackAddr - pageSize) pgdirKva m
      let s := ((s.setMemory m).setCont t .fresh).addLog (.create t)
      let s := initQueue (.inr (.wait t)) (initQueue (.inl t) s)
      (pid, enqueue t .ready s)

/-- `do_thread_create`: the pid, 0 if there is no free slot. -/
def doThreadCreate (c : ℕ) (s : Kernel) : ℤ × Kernel :=
  match freeSlot s with
  | none => (0, s)
  | some t =>
    let pid := s.processId
    let p := s.cur c
    let s := { s with processId := s.processId + 1 }.setPcb t
      { s.pcb t with
        pid := pid
        status := .ready
        threadGroupId := p.pid
        killed := false
        mask := p.mask
        dirInode := p.dirInode
        pgdirKva := p.pgdirKva }
    let stackBase := (userStackAddr - pageSize - pid * pageSize).toNat
    let (_, m) := allocPageHelper (stackBase - pageSize) p.pgdirKva s.memory
    let s := ((s.setMemory m).setCont t .fresh).addLog (.create t)
    let s := initQueue (.inr (.wait t)) (initQueue (.inl t) s)
    (pid, enqueue t .ready s)

/-! ## Ending processes -/

/-- `free_lock`. -/
def freeLock (c : ℕ) (pid : ℤ) (s : Kernel) : Option Kernel :=
  loopM (fun i s => if (s.mlocks i).pid = pid then doMutexLockRelease c i s else some s) 0 lockNum s

/-- The check of `free_barrier` at one barrier. -/
def kickBarrier (c i : ℕ) (s : Kernel) : Option Kernel :=
  if 0 < (s.barriers i).arrived then
    (isInQueue (s.current c) (.barrier i) s).map fun b =>
      if b then
        let s := doUnblock (s.current c) s
        s.setBarrier i { s.barriers i with arrived := (s.barriers i).arrived - 1 }
      else s
  else some s

/-- `free_barrier`. -/
def freeBarrier (c : ℕ) (s : Kernel) : Option Kernel :=
  loopM (fun i s => do
    let s ← acquireBarrierSpin i s
    let s ← kickBarrier c i s
    return releaseBarrierSpin i s) 0 barrierNum s

/-- The check of `free_mbox` at one mailbox. -/
def kickMbox (c i : ℕ) (s : Kernel) : Option Kernel :=
  if 0 < (s.mailboxes i).userCount then
    (isInQueue (s.current c) (.send i) s).bind fun b1 =>
      (if b1 then some true else isInQueue (s.current c) (.recv i) s).map fun b2 =>
        if b2 then
          let s := doUnblock (s.current c) s
          s.setMailbox i { s.mailboxes i with userCount := (s.mailboxes i).userCount - 1 }
        else s
  else some s

/-- `free_mbox`. -/
def freeMbox (c : ℕ) (s : Kernel) : Option Kernel :=
  loopM (fun i s => do
    let s ← acquireMailboxSpin i s
    let s ← kickMbox c i s
    return releaseMailboxSpin i s) 0 mboxNum s

/-- Free the pages of the process, if it is not a thread. -/
def freeSpace (c : ℕ) (s : Kernel) : Option Kernel :=
  if (s.cur c).threadGroupId = 0 then
    (freeAllPages (s.cur c).pgdirKva (s.cur c).pgdirKva s.memory).map fun m =>
      (s.setMemory m).addLog (.freeAll (s.current c) (s.cur c).pgdirKva)
  else some s

/-- Mark the process as exited. -/
def markExited (t : Task) (s : Kernel) : Kernel :=
  (s.setPcb t { s.pcb t with
    status := .exited, killed := true, threadGroupId := 0, mask := maskAll }).addLog (.exit t)

/-- What `force_exit` and `do_exit` do with `current_running`. -/
def exitCurrent (c : ℕ) (s : Kernel) : Option Kernel := do
  let s ← freeLock c (s.cur c).pid s
  let s ← freeBarrier c s
  let s ← freeMbox c s
  let s ← freeSpace c s
  wakeup (.wait (s.current c)) (markExited (s.current c) s)

/-- `force_exit`: end process `t` in the place of `current_running`. -/
def forceExit (c : ℕ) (t : Task) (s : Kernel) : Option Kernel := do
  let back := s.current c
  let s ← exitCurrent c (s.setCurrent c t)
  return s.setCurrent c back

/-- `clean_zombie`. -/
def cleanZombie (c : ℕ) (s : Kernel) : Option Kernel :=
  slots.foldlM (fun s i =>
    if (s.pcb (.pcb i)).status = .blocked ∧ (s.pcb (.pcb i)).killed then forceExit c (.pcb i) s
    else some s) s

/-! ## The scheduler -/

/-- `if_mask_match`. -/
def ifMaskMatch (c : ℕ) (s : Kernel) (t : Task) : Bool := (s.pcb t).mask.testBit c

/-- The end of `do_scheduler` up to the switch: `node` is what the search of the ready queue gave. -/
def switchTo (c : ℕ) (prev : Task) (setReady : Bool) (node : Option Task) (s : Kernel) : Kernel :=
  let (next, s) := match node with
    | none => (Task.idle c, s)
    | some t => (t, s.setPcb t { s.pcb t with cpuid := c })
  let s := if setReady then s.setStatus prev .ready else s
  (s.setCurrent c next).setStatus next .running

/-- The choice of the next process in `do_scheduler`. -/
def pickNext (c : ℕ) (s : Kernel) : Option Kernel :=
  let prev := s.current c
  let setReady := (s.pcb prev).status = .running ∧ (s.pcb prev).pid ≠ 0
  let s := if setReady then enqueue prev .ready s else s
  (visit .ready (ifMaskMatch c s) s).map fun r => switchTo c prev setReady r.1 r.2

/-- `do_scheduler` up to the switch to the next process. -/
def doScheduler (c now : ℕ) (s : Kernel) : Option Kernel := do
  let s ← checkSleeping now s
  let s ← cleanZombie c s
  pickNext c s

/-- The process on CPU `c` calls `do_scheduler` and will go on as `k` says. -/
def deschedule (c now : ℕ) (k : Cont) (s : Kernel) : Option Kernel :=
  doScheduler c now (s.setCont (s.current c) k)

/-- `do_exit`. A process that gets here does not go on; if it is switched to again, it is killed. -/
def doExit (c now : ℕ) (s : Kernel) : Option Kernel := do
  let s ← exitCurrent c s
  deschedule c now (.inCall .exit (.ret 0)) s

/-! ## Waiting, killing, sleeping -/

/-- `do_kill`. -/
def doKill (c : ℕ) (pid : ℤ) (s : Kernel) : ℤ × Kernel :=
  if pid = 0 then (0, s)
  else if pid = (s.cur c).pid then (0, s)
  else
    match getPcb pid s with
    | none => (0, s)
    | some t =>
      if pid < 0 ∨ s.processId < pid then (0, s)
      else (1, s.setPcb t { s.pcb t with killed := true })

/-- `do_waitpid` up to its return or to `do_scheduler`, after which it returns. -/
def doWaitpid (c : ℕ) (pid : ℤ) (s : Kernel) : Out × Kernel :=
  match getPcb pid s with
  | none => (.ret 0, s)
  | some t => (.sched (.ret pid), doBlock (s.current c) (.wait t) s)

/-- `do_thread_join` up to its return or to `do_scheduler`, after which it returns. -/
def doThreadJoin (c : ℕ) (pid : ℤ) (s : Kernel) : Out × Kernel :=
  match getPcb pid s with
  | none => (.ret 0, s)
  | some t =>
    if (s.pcb t).threadGroupId ≠ (s.cur c).pid then (.ret 0, s)
    else (.sched (.ret pid), doBlock (s.current c) (.wait t) s)

/-- `do_sleep` at time `now` up to `do_scheduler`. -/
def doSleep (c now time : ℕ) (s : Kernel) : Out × Kernel :=
  let t := s.current c
  let s := s.setPcb t { s.pcb t with wakeupTime := (now + time) % 2 ^ 64 }
  (.sched (.ret 0), doBlock t .sleep s)

end RiscvKernel.Sched
