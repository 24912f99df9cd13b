import RiscvKernel.Sched.Kernel

/-!
# Mailboxes and pipes

The functions of `mbox.c` and `pipe.c`. The contents of user memory are not part of the model: `data`
gives the bytes of the message at the time they are read, and the bytes that a receiver gets are in the
log.
-/

namespace RiscvKernel.Sched

open Lib Mm

/-! ## Mailboxes -/

def acquireMailboxSpin (i : ℕ) (s : Kernel) : Option Kernel :=
  if (s.mailboxes i).lock = .locked then none
  else some (s.setMailbox i { s.mailboxes i with lock := .locked })

def releaseMailboxSpin (i : ℕ) (s : Kernel) : Kernel :=
  s.setMailbox i { s.mailboxes i with lock := .unlocked }

/-- `do_mbox_open`; the name has to fit. -/
def doMboxOpen (name : CStr) (s : Kernel) : Option (ℤ × Kernel) :=
  match scan (fun i => if 0 < (s.mailboxes i).userCount ∧ (s.mailboxes i).name = name then some i
      else none) 0 mboxNum with
  | some i =>
    some (i, s.setMailbox i
      { s.mailboxes i with userCount := i32 ((s.mailboxes i).userCount + 1) })
  | none =>
    match scan (fun i => if (s.mailboxes i).userCount = 0 then some i else none) 0 mboxNum with
    | some i =>
      if name.length < maxMboxName then
        some (i, s.setMailbox i { s.mailboxes i with name := name, userCount := 1 })
      else none
    | none => some (-1, s)

/-- `do_mbox_close`. -/
def doMboxClose (mboxIdx : ℤ) (s : Kernel) : Option Kernel :=
  if mboxIdx < 0 ∨ mboxNum ≤ mboxIdx then some s
  else
    let i := mboxIdx.toNat
    let s := s.setMailbox i { s.mailboxes i with userCount := i32 ((s.mailboxes i).userCount - 1) }
    if (s.mailboxes i).userCount = 0 then do
      let s := s.setMailbox i { s.mailboxes i with nread := 0, nwrite := 0 }
      let s ← wakeup (.recv i) s
      wakeup (.send i) s
    else some s

/-- The position in the ring of a counter, if it is one. -/
def ringIndex (n : ℤ) : Option ℕ :=
  if 0 ≤ n.tmod maxMboxLength then some (n.tmod maxMboxLength).toNat else none

/-- `mailbox->buf[mailbox->nwrite % MAX_MBOX_LENGTH] = b; mailbox->nwrite++`. -/
def putByte (b : Byte) (m : Mailbox) : Option Mailbox :=
  (ringIndex m.nwrite).map fun i =>
    { m with buf := Function.update m.buf i b, nwrite := i32 (m.nwrite + 1) }

/-- `mailbox->buf[mailbox->nread % MAX_MBOX_LENGTH]; mailbox->nread++`. -/
def getByte (m : Mailbox) : Option (Byte × Mailbox) :=
  (ringIndex m.nread).map fun i => (m.buf i, { m with nread := i32 (m.nread + 1) })

/-- The copy loop of `do_mbox_send`. -/
def putBytes : List Byte → Mailbox → Option Mailbox
  | [], m => some m
  | b :: bs, m => (putByte b m).bind (putBytes bs)

/-- The copy loop of `do_mbox_recv`. -/
def getBytes : ℕ → Mailbox → Option (List Byte × Mailbox)
  | 0, m => some ([], m)
  | n + 1, m => do
    let (b, m) ← getByte m
    let (bs, m) ← getBytes n m
    return (b :: bs, m)

/-- The pages of the message that a call starts with. -/
def pinFirst (c msg : ℕ) (s : Kernel) : Option (Pin × Kernel) :=
  let (kva, m) := checkOnePage msg (s.cur c).pgdirKva s.memory
  (removeFromActiveList kva m).map fun m =>
    ({ kva := kva, uva := rounddown msg pageSize }, s.setMemory m)

/-- Unpin the page of the message and pin the next one. The flag is `false` when `add_to_active_list`
runs `do_exit`. -/
def pinNext (c : ℕ) (pin : Pin) (s : Kernel) : Option (Bool × Pin × Kernel) := do
  let p := s.cur c
  let (ok, m) ← addToActiveList (kva2pa pin.kva) pin.uva p.pid p.pgdirKva s.memory
  if !ok then return (false, pin, s.setMemory m)
  else
    let uva := pin.uva + pageSize
    let (kva, m) := checkOnePage uva p.pgdirKva m
    let m ← removeFromActiveList kva m
    return (true, { kva := kva, uva := uva }, s.setMemory m)

/-- `if (unpin_last)`, go to the next page. -/
def pinNextIf (c : ℕ) (unpinLast : Bool) (pin : Pin) (s : Kernel) : Option (Bool × Pin × Kernel) :=
  if unpinLast then pinNext c pin s else some (true, pin, s)

/-- The length of the next part of a message of which `done` bytes have been transferred, `room` being
what the ring allows, and whether it fills a page. -/
def chunkSize (room length done : ℤ) : ℤ × Bool :=
  let left := length - done
  let chunk := if room < left then room else left
  let maxAllowSend := rounddown (done + pageSize).toNat pageSize - done
  if maxAllowSend ≤ chunk then (maxAllowSend, true) else (chunk, false)

/-- The loop of `do_mbox_send`, with the spin lock held. -/
def mboxSendLoop (c i : ℕ) (length : ℤ) (data : ℕ → Byte) :
    ℕ → ℤ → Pin → Kernel → Option (Out × Kernel)
  | 0, _, _, _ => none
  | fuel + 1, sent, pin, s =>
    if sent < length then
      let used := i32 ((s.mailboxes i).nwrite - (s.mailboxes i).nread)
      let remainSpace := maxMboxLength - used
      if 0 < remainSpace then do
        let (chunk, unpinLast) := chunkSize remainSpace length sent
        let bytes := (List.range chunk.toNat).map fun k => data (sent.toNat + k)
        let m ← putBytes bytes (s.mailboxes i)
        let s := (s.setMailbox i m).addLog (.put i (s.current c) bytes)
        let (ok, pin, s) ← pinNextIf c unpinLast pin s
        if !ok then return (.exit, s)
        else
          let s ← wakeup (.recv i) s
          mboxSendLoop c i length data fuel (sent + chunk) pin s
      else
        let s := doBlock (s.current c) (.send i) s
        some (.sched (.send sent pin), releaseMailboxSpin i s)
    else some (.ret sent, releaseMailboxSpin i s)

/-- `do_mbox_send` up to its return or to `do_scheduler`. -/
def doMboxSend (c : ℕ) (mboxIdx : ℤ) (msg : ℕ) (msgLength : ℤ) (data : ℕ → Byte) (s : Kernel) :
    Option (Out × Kernel) :=
  if mboxIdx < 0 ∨ mboxNum ≤ mboxIdx then some (.ret (-1), s)
  else if (s.mailboxes mboxIdx.toNat).userCount = 0 then some (.ret (-1), s)
  else do
    let (pin, s) ← pinFirst c msg s
    let s ← acquireMailboxSpin mboxIdx.toNat s
    mboxSendLoop c mboxIdx.toNat msgLength data (msgLength.toNat + 1) 0 pin s

/-- `do_mbox_send` when it goes on after `do_scheduler`. -/
def resumeMboxSend (c : ℕ) (mboxIdx msgLength : ℤ) (data : ℕ → Byte) (sent : ℤ) (pin : Pin)
    (s : Kernel) : Option (Out × Kernel) := do
  let s ← acquireMailboxSpin mboxIdx.toNat s
  mboxSendLoop c mboxIdx.toNat msgLength data (msgLength.toNat + 1) sent pin s

/-- The loop of `do_mbox_recv`, with the spin lock held. -/
def mboxRecvLoop (c i : ℕ) (length : ℤ) : ℕ → ℤ → Pin → Kernel → Option (Out × Kernel)
  | 0, _, _, _ => none
  | fuel + 1, read, pin, s =>
    if read < length then
      let availableData := i32 ((s.mailboxes i).nwrite - (s.mailboxes i).nread)
      if 0 < availableData then do
        let (chunk, unpinLast) := chunkSize availableData length read
        let (bytes, m) ← getBytes chunk.toNat (s.mailboxes i)
        let s := (s.setMailbox i m).addLog (.got i (s.current c) bytes)
        let (ok, pin, s) ← pinNextIf c unpinLast pin s
        if !ok then return (.exit, s)
        else
          let s ← wakeup (.send i) s
          mboxRecvLoop c i length fuel (read + chunk) pin s
      else
        let s := doBlock (s.current c) (.recv i) s
        some (.sched (.recv read pin), releaseMailboxSpin i s)
    else some (.ret read, releaseMailboxSpin i s)

/-- `do_mbox_recv` up to its return or to `do_scheduler`. -/
def doMboxRecv (c : ℕ) (mboxIdx : ℤ) (msg : ℕ) (msgLength : ℤ) (s : Kernel) : Option (Out × Kernel) :=
  if mboxIdx < 0 ∨ mboxNum ≤ mboxIdx then some (.ret (-1), s)
  else if (s.mailboxes mboxIdx.toNat).userCount = 0 then some (.ret (-1), s)
  else do
    let (pin, s) ← pinFirst c msg s
    let s ← acquireMailboxSpin mboxIdx.toNat s
    mboxRecvLoop c mboxIdx.toNat msgLength (msgLength.toNat + 1) 0 pin s

/-- `do_mbox_recv` when it goes on after `do_scheduler`. -/
def resumeMboxRecv (c : ℕ) (mboxIdx msgLength read : ℤ) (pin : Pin) (s : Kernel) :
    Option (Out × Kernel) := do
  let s ← acquireMailboxSpin mboxIdx.toNat s
  mboxRecvLoop c mboxIdx.toNat msgLength (msgLength.toNat + 1) read pin s

/-! ## Pipes -/

/-- `sys_pipe_open`; the name has to fit. -/
def sysPipeOpen (name : CStr) (s : Kernel) : Option (ℤ × Kernel) :=
  match scan (fun i => if (s.pipes i).valid ∧ (s.pipes i).name = name then some i else none) 0
      pipeMaxNum with
  | some i => some (i, s)
  | none =>
    match scan (fun i => if (s.pipes i).valid then none else some i) 0 pipeMaxNum with
    | some i =>
      if name.length ≤ pipeNameLen then
        let s := s.setPipe i
          { s.pipes i with name := name, valid := true, head := 0, tail := 0, dataCount := 0 }
        some (i, initQueue (.inr (.pipe i)) s)
      else none
    | none => some (-1, s)

/-- Block the process in the queue of a pipe. -/
def pipeBlock (t : Task) (i : ℕ) (s : Kernel) : Kernel :=
  (enqueue t (.pipe i) (s.setStatus t .blocked)).addLog (.block t (.pipe i))

/-- Take the page at `va` out of the page table: its physical address, `none` if there is no private
page. -/
def unmapPage (va pgdir : ℕ) (m : Memory) : Option (Option ℕ × Memory) :=
  match getPte va pgdir m with
  | none => some (none, m)
  | some pte =>
    let e := readPte m pte
    if getAttribute e pagePresent ≠ 0 then
      if getAttribute e pageShm ≠ 0 then some (none, m)
      else
        let pa := getPa e
        (removeFromActiveList (pa2kva pa) m).map fun m => (some pa, writePte pte 0 m)
    else if getAttribute e pageSwap ≠ 0 then
      let (kva, m) := allocPage 1 m
      some (some (kva2pa kva), writePte pte 0 (swapIn kva (e / 2 ^ 10) m))
    else some (none, m)

/-- The loop of `sys_pipe_give_pages`. -/
def pipeGiveLoop (c i src length : ℕ) : ℕ → ℤ → Kernel → Option (Out × Kernel)
  | 0, _, _ => none
  | fuel + 1, done, s =>
    if done < i32 (length / pageSize : ℕ) then
      if (pipeBufferSize : ℤ) ≤ (s.pipes i).dataCount then
        some (.sched (.give done), pipeBlock (s.current c) i s)
      else do
        let (pa, m) ← unmapPage (src + done.toNat * pageSize) (s.cur c).pgdirKva s.memory
        let s := s.setMemory m
        match pa with
        | none => return (.ret (-1), s)
        | some pa =>
          let p := s.pipes i
          let s := s.setPipe i { p with
            pageBuffer := Function.update p.pageBuffer p.head pa
            head := (p.head + 1) % pipeBufferSize
            dataCount := p.dataCount + 1 }
          let s ← wakeupIf (.pipe i) s
          pipeGiveLoop c i src length fuel (done + 1) s
    else some (.ret length, s)

/-- The loop of `sys_pipe_take_pages`. -/
def pipeTakeLoop (c i dst length : ℕ) : ℕ → ℤ → Kernel → Option (Out × Kernel)
  | 0, _, _ => none
  | fuel + 1, done, s =>
    if done < i32 (length / pageSize : ℕ) then
      if (s.pipes i).dataCount = 0 then
        some (.sched (.take done), pipeBlock (s.current c) i s)
      else do
        let va := dst + done.toNat * pageSize
        let p := s.pipes i
        let pa := p.pageBuffer p.tail
        let s := s.setPipe i { p with
          tail := (p.tail + 1) % pipeBufferSize
          dataCount := p.dataCount - 1 }
        let m := mapPage va pa (s.cur c).pgdirKva (pageRead ||| pageWrite ||| pageExec ||| pageUser)
          s.memory
        let (ok, m) ← addToActiveList pa va (s.cur c).pid (s.cur c).pgdirKva m
        let s := s.setMemory m
        if !ok then return (.exit, s)
        else
          let s ← wakeupIf (.pipe i) s
          pipeTakeLoop c i dst length fuel (done + 1) s
    else some (.ret length, s)

/-- The checks of the arguments that both calls make. -/
def pipeArgsOk (pipeIdx : ℤ) (addr length : ℕ) (s : Kernel) : Bool :=
  0 ≤ pipeIdx && pipeIdx < pipeMaxNum && (s.pipes pipeIdx.toNat).valid && addr % pageSize = 0 &&
    length % pageSize = 0

/-- `sys_pipe_give_pages` up to its return or to `do_scheduler`. -/
def sysPipeGivePages (c : ℕ) (pipeIdx : ℤ) (src length : ℕ) (s : Kernel) : Option (Out × Kernel) :=
  if !pipeArgsOk pipeIdx src length s then some (.ret (-1), s)
  else pipeGiveLoop c pipeIdx.toNat src length (length + 1) 0 s

/-- `sys_pipe_take_pages` up to its return or to `do_scheduler`. -/
def sysPipeTakePages (c : ℕ) (pipeIdx : ℤ) (dst length : ℕ) (s : Kernel) : Option (Out × Kernel) :=
  if !pipeArgsOk pipeIdx dst length s then some (.ret (-1), s)
  else pipeTakeLoop c pipeIdx.toNat dst length (length + 1) 0 s

end RiscvKernel.Sched
