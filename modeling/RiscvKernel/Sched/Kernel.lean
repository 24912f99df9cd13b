import RiscvKernel.Lib.Ring
import RiscvKernel.Mm.Memory

/-!
# The kernel's processes, queues and synchronisation objects

The state of the kernel as far as scheduling and synchronisation go. The kernel runs with interrupts
masked and under the kernel lock, so what a process does from entering the kernel to leaving it, or to
the switch to another process in `do_scheduler`, is one step; `Cont` says where a process is
that has been switched away from in the middle of a call.

Loops over lists are walks along the pointers. A walk over a damaged list may not end, or may leave the
list nodes that are part of a PCB; the functions then give `none`.

`log` records what happens, for properties about the past. Nothing depends on it.
-/

namespace RiscvKernel.Sched

open Lib Mm

def lockNum : ℕ := 16
def conditionNum : ℕ := 16
def barrierNum : ℕ := 16
def mboxNum : ℕ := 16
def maxMboxLength : ℕ := 64
def maxMboxName : ℕ := 32
def pipeMaxNum : ℕ := 16
def pipeBufferSize : ℕ := 32
def pipeNameLen : ℕ := 32
def maskAll : ℕ := 3
def rootInodeNum : ℕ := 0

/-- `UNUSED`, the key of a free slot. -/
def unused : ℤ := -1

/-- The value of a C `int`: the representative modulo 2^32. -/
def i32 (x : ℤ) : ℤ := x.bmod (2 ^ 32)

theorem i32_eq {x : ℤ} (h0 : -2 ^ 31 ≤ x) (h1 : x < 2 ^ 31) : i32 x = x := by
  unfold i32
  rw [Int.bmod_eq_of_le] <;> omega

theorem i32_range (x : ℤ) : -2 ^ 31 ≤ i32 x ∧ i32 x < 2 ^ 31 := by
  unfold i32
  have h1 := Int.le_bmod (x := x) (m := 2 ^ 32) (by norm_num)
  have h2 := Int.bmod_lt (x := x) (m := 2 ^ 32) (by norm_num)
  omega

theorem i32_lt (x : ℤ) : i32 x < 2 ^ 31 := (i32_range x).2

/-! ## Processes -/

/-- A PCB: `pcb[i]`, or `kpcb[cpu]`, the idle process of a CPU. -/
inductive Task
  | pcb (i : Fin taskMaxnum)
  | idle (cpu : ℕ)
deriving DecidableEq

/-- `task_status_t`. -/
inductive Status
  | blocked
  | running
  | ready
  | exited
deriving DecidableEq

/-- The heads of the queues. -/
inductive Head
  | ready
  | sleep
  | wait (t : Task)
  | mutex (i : ℕ)
  | cond (i : ℕ)
  | barrier (i : ℕ)
  | send (i : ℕ)
  | recv (i : ℕ)
  | pipe (i : ℕ)
deriving DecidableEq

/-- A list node: `pcb->list`, or a head. -/
abbrev Node := Task ⊕ Head

/-- The fields of a PCB. -/
structure Pcb where
  pid : ℤ
  status : Status
  killed : Bool
  wakeupTime : ℕ
  cpuid : ℕ
  mask : ℕ
  threadGroupId : ℤ
  pgdirKva : ℕ
  dirInode : ℕ

/-! ## Synchronisation objects -/

/-- A spin lock, and the state of a mutex. -/
inductive LockStatus
  | unlocked
  | locked
deriving DecidableEq

structure MutexLock where
  lock : LockStatus
  status : LockStatus
  key : ℤ
  pid : ℤ

structure Condition where
  lock : LockStatus
  key : ℤ

structure Barrier where
  lock : LockStatus
  key : ℤ
  goal : ℤ
  arrived : ℤ

structure Mailbox where
  lock : LockStatus
  buf : ℕ → Byte
  name : CStr
  userCount : ℤ
  nread : ℤ
  nwrite : ℤ

structure Pipe where
  name : CStr
  valid : Bool
  pageBuffer : ℕ → ℕ
  head : ℕ
  tail : ℕ
  dataCount : ℤ

/-! ## Calls -/

/-- What a process can ask the kernel for; `timer` is the timer interrupt. -/
inductive Call
  | timer
  | yield
  | exec (name : CStr)
  | exit
  | sleep (time : ℕ)
  | kill (pid : ℤ)
  | waitpid (pid : ℤ)
  | threadCreate
  | threadJoin (pid : ℤ)
  | mutexInit (key : ℤ)
  | mutexAcquire (idx : ℤ)
  | mutexRelease (idx : ℤ)
  | condInit (key : ℤ)
  | condWait (cond mutex : ℤ)
  | condSignal (idx : ℤ)
  | condBroadcast (idx : ℤ)
  | condDestroy (idx : ℤ)
  | barrierInit (key goal : ℤ)
  | barrierWait (idx : ℤ)
  | barrierDestroy (idx : ℤ)
  | mboxOpen (name : CStr)
  | mboxClose (idx : ℤ)
  | mboxSend (idx : ℤ) (msg : ℕ) (length : ℤ)
  | mboxRecv (idx : ℤ) (msg : ℕ) (length : ℤ)
  | pipeOpen (name : CStr)
  | pipeGive (idx : ℤ) (src length : ℕ)
  | pipeTake (idx : ℤ) (dst length : ℕ)
deriving DecidableEq

/-- The page of a message that is kept in memory. -/
structure Pin where
  kva : ℕ
  uva : ℕ
deriving DecidableEq

/-- What is left to do after the call of `do_scheduler` in the middle of a call. -/
inductive Point
  /-- return the value -/
  | ret (r : ℤ)
  /-- get the mutex back and return, in `do_condition_wait` -/
  | relock (mutex : ℤ)
  /-- go on with the loop of `do_mbox_send` -/
  | send (sent : ℤ) (pin : Pin)
  /-- go on with the loop of `do_mbox_recv` -/
  | recv (read : ℤ) (pin : Pin)
  /-- go on with the loop of `sys_pipe_give_pages` -/
  | give (done : ℤ)
  /-- go on with the loop of `sys_pipe_take_pages` -/
  | take (done : ℤ)
deriving DecidableEq

/-- Where a process is. -/
inductive Cont
  /-- in user mode, or in the idle loop -/
  | user
  /-- created and not yet run: the first switch to it goes to `ret_from_exception` -/
  | fresh
  /-- switched away from in `do_scheduler`, called from the point in the call -/
  | inCall (call : Call) (point : Point)
deriving DecidableEq

/-- How the part of a call up to its return or to `do_scheduler` ends. -/
inductive Out
  /-- the call returns -/
  | ret (r : ℤ)
  /-- the call has blocked the process and runs `do_scheduler` -/
  | sched (point : Point)
  /-- the call runs `do_exit` -/
  | exit
deriving DecidableEq

/-! ## The state -/

/-- What happened. -/
inductive Event
  | enter (t : Task) (call : Call)
  | ret (t : Task) (call : Call) (r : ℤ)
  | block (t : Task) (q : Head)
  | wake (t : Task)
  | create (t : Task)
  | exit (t : Task)
  | freeAll (t : Task) (pgdir : ℕ)
  | put (mbox : ℕ) (t : Task) (bytes : List Byte)
  | got (mbox : ℕ) (t : Task) (bytes : List Byte)
deriving DecidableEq

/-- The state of the kernel. `current` is `current_running` of every CPU, `kernelLock` the CPU that
holds the kernel lock. -/
structure Kernel where
  links : Links Task Head
  pcb : Task → Pcb
  current : ℕ → Task
  processId : ℤ
  mlocks : ℕ → MutexLock
  conditions : ℕ → Condition
  barriers : ℕ → Barrier
  mailboxes : ℕ → Mailbox
  pipes : ℕ → Pipe
  memory : Memory
  cont : Task → Cont
  kernelLock : Option ℕ
  log : List Event

namespace Kernel

variable (s : Kernel)

/-- `current_running` on CPU `c`. -/
def cur (c : ℕ) : Pcb := s.pcb (s.current c)

def setLinks (l : Links Task Head) : Kernel := { s with links := l }

def setCurrent (c : ℕ) (t : Task) : Kernel := { s with current := Function.update s.current c t }

def setMemory (m : Memory) : Kernel := { s with memory := m }

def setPcb (t : Task) (p : Pcb) : Kernel := { s with pcb := Function.update s.pcb t p }

def setStatus (t : Task) (x : Status) : Kernel := s.setPcb t { s.pcb t with status := x }

def setMutex (i : ℕ) (m : MutexLock) : Kernel := { s with mlocks := Function.update s.mlocks i m }

def setCondition (i : ℕ) (x : Condition) : Kernel :=
  { s with conditions := Function.update s.conditions i x }

def setBarrier (i : ℕ) (x : Barrier) : Kernel := { s with barriers := Function.update s.barriers i x }

def setMailbox (i : ℕ) (x : Mailbox) : Kernel := { s with mailboxes := Function.update s.mailboxes i x }

def setPipe (i : ℕ) (x : Pipe) : Kernel := { s with pipes := Function.update s.pipes i x }

def setCont (t : Task) (k : Cont) : Kernel := { s with cont := Function.update s.cont t k }

def addLog (e : Event) : Kernel := { s with log := s.log ++ [e] }

/-! ### Fields that a setter leaves alone -/

section Fields

variable (s : Kernel)

@[simp] theorem setLinks_pcb (l : Links Task Head) : (s.setLinks l).pcb = s.pcb := rfl
@[simp] theorem setCurrent_pcb (c : ℕ) (t : Task) : (s.setCurrent c t).pcb = s.pcb := rfl
@[simp] theorem setMemory_pcb (m : Memory) : (s.setMemory m).pcb = s.pcb := rfl
@[simp] theorem setMutex_pcb (i : ℕ) (m : MutexLock) : (s.setMutex i m).pcb = s.pcb := rfl
@[simp] theorem setCondition_pcb (i : ℕ) (x : Condition) : (s.setCondition i x).pcb = s.pcb := rfl
@[simp] theorem setBarrier_pcb (i : ℕ) (x : Barrier) : (s.setBarrier i x).pcb = s.pcb := rfl
@[simp] theorem setMailbox_pcb (i : ℕ) (x : Mailbox) : (s.setMailbox i x).pcb = s.pcb := rfl
@[simp] theorem setPipe_pcb (i : ℕ) (x : Pipe) : (s.setPipe i x).pcb = s.pcb := rfl
@[simp] theorem setCont_pcb (t : Task) (k : Cont) : (s.setCont t k).pcb = s.pcb := rfl
@[simp] theorem addLog_pcb (e : Event) : (s.addLog e).pcb = s.pcb := rfl

@[simp] theorem setLinks_current (l : Links Task Head) : (s.setLinks l).current = s.current := rfl
@[simp] theorem setMemory_current (m : Memory) : (s.setMemory m).current = s.current := rfl
@[simp] theorem setPcb_current (t : Task) (p : Pcb) : (s.setPcb t p).current = s.current := rfl
@[simp] theorem setMutex_current (i : ℕ) (m : MutexLock) : (s.setMutex i m).current = s.current := rfl
@[simp] theorem setCondition_current (i : ℕ) (x : Condition) : (s.setCondition i x).current = s.current := rfl
@[simp] theorem setBarrier_current (i : ℕ) (x : Barrier) : (s.setBarrier i x).current = s.current := rfl
@[simp] theorem setMailbox_current (i : ℕ) (x : Mailbox) : (s.setMailbox i x).current = s.current := rfl
@[simp] theorem setPipe_current (i : ℕ) (x : Pipe) : (s.setPipe i x).current = s.current := rfl
@[simp] theorem setCont_current (t : Task) (k : Cont) : (s.setCont t k).current = s.current := rfl
@[simp] theorem addLog_current (e : Event) : (s.addLog e).current = s.current := rfl

@[simp] theorem setLinks_mlocks (l : Links Task Head) : (s.setLinks l).mlocks = s.mlocks := rfl
@[simp] theorem setCurrent_mlocks (c : ℕ) (t : Task) : (s.setCurrent c t).mlocks = s.mlocks := rfl
@[simp] theorem setMemory_mlocks (m : Memory) : (s.setMemory m).mlocks = s.mlocks := rfl
@[simp] theorem setPcb_mlocks (t : Task) (p : Pcb) : (s.setPcb t p).mlocks = s.mlocks := rfl
@[simp] theorem setCondition_mlocks (i : ℕ) (x : Condition) : (s.setCondition i x).mlocks = s.mlocks := rfl
@[simp] theorem setBarrier_mlocks (i : ℕ) (x : Barrier) : (s.setBarrier i x).mlocks = s.mlocks := rfl
@[simp] theorem setMailbox_mlocks (i : ℕ) (x : Mailbox) : (s.setMailbox i x).mlocks = s.mlocks := rfl
@[simp] theorem setPipe_mlocks (i : ℕ) (x : Pipe) : (s.setPipe i x).mlocks = s.mlocks := rfl
@[simp] theorem setCont_mlocks (t : Task) (k : Cont) : (s.setCont t k).mlocks = s.mlocks := rfl
@[simp] theorem addLog_mlocks (e : Event) : (s.addLog e).mlocks = s.mlocks := rfl

@[simp] theorem setLinks_conditions (l : Links Task Head) : (s.setLinks l).conditions = s.conditions := rfl
@[simp] theorem setCurrent_conditions (c : ℕ) (t : Task) : (s.setCurrent c t).conditions = s.conditions := rfl
@[simp] theorem setMemory_conditions (m : Memory) : (s.setMemory m).conditions = s.conditions := rfl
@[simp] theorem setPcb_conditions (t : Task) (p : Pcb) : (s.setPcb t p).conditions = s.conditions := rfl
@[simp] theorem setMutex_conditions (i : ℕ) (m : MutexLock) : (s.setMutex i m).conditions = s.conditions := rfl
@[simp] theorem setBarrier_conditions (i : ℕ) (x : Barrier) : (s.setBarrier i x).conditions = s.conditions := rfl
@[simp] theorem setMailbox_conditions (i : ℕ) (x : Mailbox) : (s.setMailbox i x).conditions = s.conditions := rfl
@[simp] theorem setPipe_conditions (i : ℕ) (x : Pipe) : (s.setPipe i x).conditions = s.conditions := rfl
@[simp] theorem setCont_conditions (t : Task) (k : Cont) : (s.setCont t k).conditions = s.conditions := rfl
@[simp] theorem addLog_conditions (e : Event) : (s.addLog e).conditions = s.conditions := rfl

@[simp] theorem setLinks_barriers (l : Links Task Head) : (s.setLinks l).barriers = s.barriers := rfl
@[simp] theorem setCurrent_barriers (c : ℕ) (t : Task) : (s.setCurrent c t).barriers = s.barriers := rfl
@[simp] theorem setMemory_barriers (m : Memory) : (s.setMemory m).barriers = s.barriers := rfl
@[simp] theorem setPcb_barriers (t : Task) (p : Pcb) : (s.setPcb t p).barriers = s.barriers := rfl
@[simp] theorem setMutex_barriers (i : ℕ) (m : MutexLock) : (s.setMutex i m).barriers = s.barriers := rfl
@[simp] theorem setCondition_barriers (i : ℕ) (x : Condition) : (s.setCondition i x).barriers = s.barriers := rfl
@[simp] theorem setMailbox_barriers (i : ℕ) (x : Mailbox) : (s.setMailbox i x).barriers = s.barriers := rfl
@[simp] theorem setPipe_barriers (i : ℕ) (x : Pipe) : (s.setPipe i x).barriers = s.barriers := rfl
@[simp] theorem setCont_barriers (t : Task) (k : Cont) : (s.setCont t k).barriers = s.barriers := rfl
@[simp] theorem addLog_barriers (e : Event) : (s.addLog e).barriers = s.barriers := rfl

@[simp] theorem setLinks_mailboxes (l : Links Task Head) : (s.setLinks l).mailboxes = s.mailboxes := rfl
@[simp] theorem setCurrent_mailboxes (c : ℕ) (t : Task) : (s.setCurrent c t).mailboxes = s.mailboxes := rfl
@[simp] theorem setMemory_mailboxes (m : Memory) : (s.setMemory m).mailboxes = s.mailboxes := rfl
@[simp] theorem setPcb_mailboxes (t : Task) (p : Pcb) : (s.setPcb t p).mailboxes = s.mailboxes := rfl
@[simp] theorem setMutex_mailboxes (i : ℕ) (m : MutexLock) : (s.setMutex i m).mailboxes = s.mailboxes := rfl
@[simp] theorem setCondition_mailboxes (i : ℕ) (x : Condition) : (s.setCondition i x).mailboxes = s.mailboxes := rfl
@[simp] theorem setBarrier_mailboxes (i : ℕ) (x : Barrier) : (s.setBarrier i x).mailboxes = s.mailboxes := rfl
@[simp] theorem setPipe_mailboxes (i : ℕ) (x : Pipe) : (s.setPipe i x).mailboxes = s.mailboxes := rfl
@[simp] theorem setCont_mailboxes (t : Task) (k : Cont) : (s.setCont t k).mailboxes = s.mailboxes := rfl
@[simp] theorem addLog_mailboxes (e : Event) : (s.addLog e).mailboxes = s.mailboxes := rfl

@[simp] theorem setLinks_pipes (l : Links Task Head) : (s.setLinks l).pipes = s.pipes := rfl
@[simp] theorem setCurrent_pipes (c : ℕ) (t : Task) : (s.setCurrent c t).pipes = s.pipes := rfl
@[simp] theorem setMemory_pipes (m : Memory) : (s.setMemory m).pipes = s.pipes := rfl
@[simp] theorem setPcb_pipes (t : Task) (p : Pcb) : (s.setPcb t p).pipes = s.pipes := rfl
@[simp] theorem setMutex_pipes (i : ℕ) (m : MutexLock) : (s.setMutex i m).pipes = s.pipes := rfl
@[simp] theorem setCondition_pipes (i : ℕ) (x : Condition) : (s.setCondition i x).pipes = s.pipes := rfl
@[simp] theorem setBarrier_pipes (i : ℕ) (x : Barrier) : (s.setBarrier i x).pipes = s.pipes := rfl
@[simp] theorem setMailbox_pipes (i : ℕ) (x : Mailbox) : (s.setMailbox i x).pipes = s.pipes := rfl
@[simp] theorem setCont_pipes (t : Task) (k : Cont) : (s.setCont t k).pipes = s.pipes := rfl
@[simp] theorem addLog_pipes (e : Event) : (s.addLog e).pipes = s.pipes := rfl

@[simp] theorem setLinks_cont (l : Links Task Head) : (s.setLinks l).cont = s.cont := rfl
@[simp] theorem setCurrent_cont (c : ℕ) (t : Task) : (s.setCurrent c t).cont = s.cont := rfl
@[simp] theorem setMemory_cont (m : Memory) : (s.setMemory m).cont = s.cont := rfl
@[simp] theorem setPcb_cont (t : Task) (p : Pcb) : (s.setPcb t p).cont = s.cont := rfl
@[simp] theorem setMutex_cont (i : ℕ) (m : MutexLock) : (s.setMutex i m).cont = s.cont := rfl
@[simp] theorem setCondition_cont (i : ℕ) (x : Condition) : (s.setCondition i x).cont = s.cont := rfl
@[simp] theorem setBarrier_cont (i : ℕ) (x : Barrier) : (s.setBarrier i x).cont = s.cont := rfl
@[simp] theorem setMailbox_cont (i : ℕ) (x : Mailbox) : (s.setMailbox i x).cont = s.cont := rfl
@[simp] theorem setPipe_cont (i : ℕ) (x : Pipe) : (s.setPipe i x).cont = s.cont := rfl
@[simp] theorem addLog_cont (e : Event) : (s.addLog e).cont = s.cont := rfl

@[simp] theorem setLinks_log (l : Links Task Head) : (s.setLinks l).log = s.log := rfl
@[simp] theorem setCurrent_log (c : ℕ) (t : Task) : (s.setCurrent c t).log = s.log := rfl
@[simp] theorem setMemory_log (m : Memory) : (s.setMemory m).log = s.log := rfl
@[simp] theorem setPcb_log (t : Task) (p : Pcb) : (s.setPcb t p).log = s.log := rfl
@[simp] theorem setMutex_log (i : ℕ) (m : MutexLock) : (s.setMutex i m).log = s.log := rfl
@[simp] theorem setCondition_log (i : ℕ) (x : Condition) : (s.setCondition i x).log = s.log := rfl
@[simp] theorem setBarrier_log (i : ℕ) (x : Barrier) : (s.setBarrier i x).log = s.log := rfl
@[simp] theorem setMailbox_log (i : ℕ) (x : Mailbox) : (s.setMailbox i x).log = s.log := rfl
@[simp] theorem setPipe_log (i : ℕ) (x : Pipe) : (s.setPipe i x).log = s.log := rfl
@[simp] theorem setCont_log (t : Task) (k : Cont) : (s.setCont t k).log = s.log := rfl

end Fields

end Kernel

/-! ## Queues -/

/-- More than the number of list nodes there are, so a walk that has not ended by then goes round for
ever. -/
def walkFuel : ℕ := 256

def initQueue (n : Node) (s : Kernel) : Kernel := s.setLinks (Links.initQueue n s.links)

def isEmptyQueue (q : Head) (s : Kernel) : Bool := Links.isEmptyQueue (.inr q) s.links

def enqueue (t : Task) (q : Head) (s : Kernel) : Kernel :=
  s.setLinks (Links.enqueue (.inl t) (.inr q) s.links)

/-- `is_in_queue`. -/
def isInQueue (t : Task) (q : Head) (s : Kernel) : Option Bool :=
  Links.isInFrom (.inl t) (.inr q) s.links walkFuel (s.links.next (.inr q))

/-- `visit`. -/
def visit (q : Head) (judge : Task → Bool) (s : Kernel) : Option (Option Task × Kernel) :=
  (Links.visitFrom q judge s.links walkFuel (s.links.next (.inr q))).map fun r =>
    (r.1, s.setLinks r.2)

/-- `dequeue` on a list of PCBs that is not empty. -/
def dequeue (q : Head) (s : Kernel) : Option (Task × Kernel) :=
  match Links.dequeue (.inr q) s.links with
  | (some (.inl t), l) => some (t, s.setLinks l)
  | _ => none

/-- `do_block`. -/
def doBlock (t : Task) (q : Head) (s : Kernel) : Kernel :=
  if (s.pcb t).killed then s
  else ((enqueue t q s).setStatus t .blocked).addLog (.block t q)

/-- `do_unblock`. -/
def doUnblock (t : Task) (s : Kernel) : Kernel :=
  let s := s.setLinks (Links.delNode (.inl t) s.links)
  (enqueue t .ready (s.setStatus t .ready)).addLog (.wake t)

/-- The loop of `wakeup`. -/
def wakeupFrom (q : Head) : ℕ → Node → Kernel → Option Kernel
  | 0, _, _ => none
  | _ + 1, .inr h, s => if h = q then some s else none
  | fuel + 1, .inl t, s => wakeupFrom q fuel (s.links.next (.inl t)) (doUnblock t s)

/-- `wakeup`. -/
def wakeup (q : Head) (s : Kernel) : Option Kernel :=
  wakeupFrom q walkFuel (s.links.next (.inr q)) s

/-- `if (!is_empty_queue(queue)) wakeup(queue)`. -/
def wakeupIf (q : Head) (s : Kernel) : Option Kernel :=
  if !isEmptyQueue q s then wakeup q s else some s

/-- The loop of `check_sleeping`. -/
def checkSleepingFrom (now : ℕ) : ℕ → Node → Kernel → Option Kernel
  | 0, _, _ => none
  | _ + 1, .inr h, s => if h = .sleep then some s else none
  | fuel + 1, .inl t, s =>
    checkSleepingFrom now fuel (s.links.next (.inl t))
      (if (s.pcb t).wakeupTime ≤ now then doUnblock t s else s)

/-- `check_sleeping` at time `now`. -/
def checkSleeping (now : ℕ) (s : Kernel) : Option Kernel :=
  checkSleepingFrom now walkFuel (s.links.next (.inr .sleep)) s

/-- The slots of the PCB array in order. -/
def slots : List (Fin taskMaxnum) := List.finRange taskMaxnum

/-- `get_pcb`. -/
def getPcb (pid : ℤ) (s : Kernel) : Option Task :=
  (slots.find? fun i => (s.pcb (.pcb i)).pid = pid ∧ (s.pcb (.pcb i)).status ≠ .exited ∧
    !(s.pcb (.pcb i)).killed).map .pcb

/-- The first free slot of the PCB array. -/
def freeSlot (s : Kernel) : Option Task :=
  (slots.find? fun i => (s.pcb (.pcb i)).status = .exited).map .pcb

end RiscvKernel.Sched
