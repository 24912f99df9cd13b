import RiscvKernel.Lib.Run
import RiscvKernel.Sched.Proc

/-!
# The kernel as a system

A step is taken by one CPU. Its current process enters the kernel from user mode with a call or the
timer interrupt, or, just after a switch, goes on inside the kernel where it was switched away from. The
step ends when the process returns to user mode or when `do_scheduler` switches to another process. A
CPU enters the kernel only when no CPU has the kernel lock, and it keeps the lock over switches.
-/

namespace RiscvKernel.Sched

open Lib Mm

/-- What a step gets from outside: the time, and the message that a sender reads. -/
structure Env where
  now : ℕ
  data : ℕ → Byte

/-- The part of a call up to its return, to `do_scheduler` or to `do_exit`. -/
def syscall (c : ℕ) (e : Env) (s : Kernel) : Call → Option (Out × Kernel)
  | .timer => some (.sched (.ret 0), s)
  | .yield => some (.sched (.ret 0), s)
  | .exec name => some (.ret (doExec c name s).1, (doExec c name s).2)
  | .exit => some (.exit, s)
  | .sleep time => some (doSleep c e.now time s)
  | .kill pid => some (.ret (doKill c pid s).1, (doKill c pid s).2)
  | .waitpid pid => some (doWaitpid c pid s)
  | .threadCreate => some (.ret (doThreadCreate c s).1, (doThreadCreate c s).2)
  | .threadJoin pid => some (doThreadJoin c pid s)
  | .mutexInit key => some (.ret (doMutexLockInit key s).1, (doMutexLockInit key s).2)
  | .mutexAcquire idx => doMutexLockAcquire c idx s
  | .mutexRelease idx => (doMutexLockRelease c idx s).map (Prod.mk (.ret 0))
  | .condInit key => some (.ret (doConditionInit key s).1, (doConditionInit key s).2)
  | .condWait cond mutex => doConditionWait c cond mutex s
  | .condSignal idx => (doConditionSignal idx s).map (Prod.mk (.ret 0))
  | .condBroadcast idx => (doConditionBroadcast idx s).map (Prod.mk (.ret 0))
  | .condDestroy idx => (doConditionDestroy idx s).map (Prod.mk (.ret 0))
  | .barrierInit key goal => some (.ret (doBarrierInit key goal s).1, (doBarrierInit key goal s).2)
  | .barrierWait idx => doBarrierWait c idx s
  | .barrierDestroy idx => (doBarrierDestroy idx s).map (Prod.mk (.ret 0))
  | .mboxOpen name => (doMboxOpen name s).map fun r => (.ret r.1, r.2)
  | .mboxClose idx => (doMboxClose idx s).map (Prod.mk (.ret 0))
  | .mboxSend idx msg length => doMboxSend c idx msg length e.data s
  | .mboxRecv idx msg length => doMboxRecv c idx msg length s
  | .pipeOpen name => (sysPipeOpen name s).map fun r => (.ret r.1, r.2)
  | .pipeGive idx src length => sysPipeGivePages c idx src length s
  | .pipeTake idx dst length => sysPipeTakePages c idx dst length s

/-- The rest of a call after `do_scheduler`. The checks for `killed` that follow `do_scheduler` in the
calls are not repeated here: `do_scheduler` itself has ended a killed process. -/
def resume (c : ℕ) (e : Env) (s : Kernel) (call : Call) : Point → Option (Out × Kernel)
  | .ret r => some (.ret r, s)
  | .relock mutex => doMutexLockAcquire c mutex s
  | .send sent pin =>
    match call with
    | .mboxSend idx _ length => resumeMboxSend c idx length e.data sent pin s
    | _ => none
  | .recv read pin =>
    match call with
    | .mboxRecv idx _ length => resumeMboxRecv c idx length read pin s
    | _ => none
  | .give done =>
    match call with
    | .pipeGive idx src length => pipeGiveLoop c idx.toNat src length (length + 1) done s
    | _ => none
  | .take done =>
    match call with
    | .pipeTake idx dst length => pipeTakeLoop c idx.toNat dst length (length + 1) done s
    | _ => none

/-- `ret_from_exception`: back to user mode. -/
def leave (c : ℕ) (s : Kernel) : Kernel := { s.setCont (s.current c) .user with kernelLock := none }

/-- How the step goes on. -/
def finish (c : ℕ) (e : Env) (call : Call) : Out × Kernel → Option Kernel
  | (.ret r, s) => some (leave c (s.addLog (.ret (s.current c) call r)))
  | (.sched point, s) => deschedule c e.now (.inCall call point) s
  | (.exit, s) => doExit c e.now s

/-- What a CPU does. -/
inductive Move
  /-- its process enters the kernel -/
  | enter (call : Call)
  /-- its process goes on after a switch -/
  | go
deriving DecidableEq

/-- A step of the system. -/
structure Act where
  cpu : ℕ
  env : Env
  move : Move

/-- The state after a step, `none` if the CPU never gets to the end of it. -/
def step (s : Kernel) (a : Act) : Option Kernel :=
  match a.move with
  | .enter call =>
    let s := { s with kernelLock := some a.cpu }.addLog (.enter (s.current a.cpu) call)
    -- `interrupt_helper`
    if (s.cur a.cpu).killed then doExit a.cpu a.env.now s
    else (syscall a.cpu a.env s call).bind (finish a.cpu a.env call)
  | .go =>
    match s.cont (s.current a.cpu) with
    | .inCall call point =>
      -- the end of `do_scheduler`
      if (s.cur a.cpu).killed then doExit a.cpu a.env.now s
      else (resume a.cpu a.env s call point).bind (finish a.cpu a.env call)
    | .fresh => some (leave a.cpu s)
    | .user => none

/-- The idle process makes no calls, but the kernel starts the first program in it. -/
def Call.madeBy : Call → Task → Bool
  | .timer, _ => true
  | .exec _, _ => true
  | _, .pcb _ => true
  | _, .idle _ => false

/-- A step that the machine can take: the kernel lock is free or the CPU's own. -/
def Enabled (s : Kernel) : Act → Prop
  | ⟨c, _, .enter call⟩ =>
    s.kernelLock = none ∧ s.cont (s.current c) = .user ∧ call.madeBy (s.current c)
  | ⟨c, _, .go⟩ => s.kernelLock = some c ∧ s.cont (s.current c) ≠ .user

instance (s : Kernel) : ∀ a, Decidable (Enabled s a)
  | ⟨_, _, .enter _⟩ => inferInstanceAs (Decidable (_ ∧ _ ∧ _))
  | ⟨_, _, .go⟩ => inferInstanceAs (Decidable (_ ∧ _))

/-- The state after a step. -/
def next (s : Kernel) (a : Act) : Kernel := (step s a).getD s

/-- The steps of a run: they can be taken and come to their end, and the calls are in `P`. -/
def Steps (P : Kernel → Act → Prop) (s : Kernel) (a : Act) : Prop :=
  Enabled s a ∧ step s a ≠ none ∧ P s a

instance (P : Kernel → Act → Prop) [∀ s a, Decidable (P s a)] (s : Kernel) (a : Act) :
    Decidable (Steps P s a) := inferInstanceAs (Decidable (_ ∧ _ ∧ _))

/-! ## The start -/

/-- The PCB of an idle process. -/
def idlePcb (cpu : ℕ) : Pcb where
  pid := 0
  status := .running
  killed := false
  wakeupTime := 0
  cpuid := cpu
  mask := maskAll
  threadGroupId := 0
  pgdirKva := pa2kva pgdirPa
  dirInode := rootInodeNum

/-- The state after `init_pcb`, `smp_init`, `init_locks`, `init_conditions`, `init_barriers`,
`init_mbox` and `init_pipes`. -/
structure Start (s : Kernel) : Prop where
  heads : ∀ h, s.links.next (.inr h) = .inr h ∧ s.links.prev (.inr h) = .inr h
  slots : ∀ i, (s.pcb (.pcb i)).status = .exited ∧ (s.pcb (.pcb i)).killed = true ∧
    (s.pcb (.pcb i)).threadGroupId = 0 ∧ (s.pcb (.pcb i)).mask = maskAll
  idle : ∀ cpu, s.pcb (.idle cpu) = idlePcb cpu
  current : ∀ cpu, s.current cpu = .idle cpu
  processId : s.processId = 1
  mlocks : ∀ i, s.mlocks i = ⟨.unlocked, .unlocked, unused, 0⟩
  conditions : ∀ i, s.conditions i = ⟨.unlocked, unused⟩
  barriers : ∀ i, s.barriers i = ⟨.unlocked, unused, 0, 0⟩
  mailboxes : ∀ i, (s.mailboxes i).lock = .unlocked ∧ (s.mailboxes i).name = [] ∧
    (s.mailboxes i).userCount = 0 ∧ (s.mailboxes i).nread = 0 ∧ (s.mailboxes i).nwrite = 0
  pipes : ∀ i, (s.pipes i).valid = false
  cont : ∀ t, s.cont t = .user
  kernelLock : s.kernelLock = none
  log : s.log = []

/-- The memory of a machine with the program `a` in its image and no page in use. -/
def bootMemory : Memory where
  mem := fun _ => 0#8
  sd := fun _ => 0#8
  tasks := fun i => if i = 0 then ⟨[97#8], 0, 0x10000, 0x1000, 0x1000⟩ else ⟨[], 0, 0, 0, 0⟩
  freePageList := 0
  freePageListCount := 0
  kernMemCurr := freememKernel
  activePages := fun _ => ⟨0, 0, 0, 0, false⟩
  activePageCount := 0
  clockHead := 0
  swapPageStatus := fun _ => false
  swapStartSec := 0
  shmTable := fun _ => ⟨-1, 0, 0, 0, false⟩
  pageLog := []

/-- A state in which the kernel starts. -/
def boot : Kernel where
  links := ⟨id, id⟩
  pcb := fun
    | .pcb _ => ⟨0, .exited, true, 0, 0, maskAll, 0, 0, 0⟩
    | .idle cpu => idlePcb cpu
  current := .idle
  processId := 1
  mlocks := fun _ => ⟨.unlocked, .unlocked, unused, 0⟩
  conditions := fun _ => ⟨.unlocked, unused⟩
  barriers := fun _ => ⟨.unlocked, unused, 0, 0⟩
  mailboxes := fun _ => ⟨.unlocked, fun _ => 0#8, [], 0, 0, 0⟩
  pipes := fun _ => ⟨[], false, fun _ => 0, 0, 0, 0⟩
  memory := bootMemory
  cont := fun _ => .user
  kernelLock := none
  log := []

/-- The current process of CPU `c` makes a call at time 0 with a message of zeros. -/
def calls (c : ℕ) (call : Call) : Act := ⟨c, ⟨0, fun _ => 0#8⟩, .enter call⟩

/-- The current process of CPU `c` goes on at time 0. -/
def resumes (c : ℕ) : Act := ⟨c, ⟨0, fun _ => 0#8⟩, .go⟩

/-- Two processes that run on CPUs 0 and 1: the program `a` and a thread of it. -/
def twoProcesses : List Act :=
  [calls 0 (.exec [97#8]), calls 0 .timer, resumes 0, calls 0 .threadCreate, calls 1 .timer, resumes 1]

theorem start_boot : Start boot where
  heads := fun _ => ⟨rfl, rfl⟩
  slots := fun _ => ⟨rfl, rfl, rfl, rfl⟩
  idle := fun _ => rfl
  current := fun _ => rfl
  processId := rfl
  mlocks := fun _ => rfl
  conditions := fun _ => rfl
  barriers := fun _ => rfl
  mailboxes := fun _ => ⟨rfl, rfl, rfl, rfl, rfl⟩
  pipes := fun _ => rfl
  cont := fun _ => rfl
  kernelLock := rfl
  log := rfl

end RiscvKernel.Sched
