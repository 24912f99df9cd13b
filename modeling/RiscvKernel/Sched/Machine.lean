import RiscvKernel.Mm.World
import RiscvKernel.Sched.Passing

/-!
# The memory of all processes

`Machine` is what the calls that move pages work on: the memory with the page tables, the swap area and the
table of shared pages, and the rings of the pipes. In an order that `MayCall` allows, each call returns, no page
is lost or used twice (`Accounts`), and the processes see what `World.Step` says: nothing of page tables,
frames and the swap area.
-/

namespace RiscvKernel.Sched

open Lib Mm

structure Machine where
  memory : Memory
  pipes : ℕ → Pipe
  spaces : Finset ℕ

namespace Machine

/-- `page_buffer` gets the page at `va`; nothing happens where there is no private page. -/
def give (r va i : ℕ) (s : Machine) : Option Machine :=
  (unmapPage va r s.memory).map fun
    | (none, m) => { s with memory := m }
    | (some pa, m) => { s with memory := m, pipes := Function.update s.pipes i (pushPage pa (s.pipes i)) }

/-- The first page of the ring is mapped at `va` and put in the list of active pages. -/
def take (r va i : ℕ) (pid : ℤ) (s : Machine) : Option Machine :=
  let pa := (s.pipes i).pageBuffer (s.pipes i).tail
  (addToActiveList pa va pid r (mapPage va pa r userFlags s.memory)).map fun x =>
    { s with memory := x.2, pipes := Function.update s.pipes i (popPage (s.pipes i)) }

def step (s : Machine) : MemCall → Option Machine
  | .spawn => some { s with memory := newSpace s.memory, spaces := insert (allocPage 1 s.memory).1 s.spaces }
  | .exit r => (freeAllPages r r s.memory).map fun m => { s with memory := m, spaces := s.spaces.erase r }
  | .fault r va => some { s with memory := (handlePageFault va r s.memory).2 }
  | .provide r va => some { s with memory := (allocPageHelper va r s.memory).2 }
  | .touch r v => some { s with memory := touch r v s.memory }
  | .store r v off b => some { s with memory := setByte (target (entry s.memory r v)) off b s.memory }
  | .track r va pid =>
    (addToActiveList (kva2pa (target (entry s.memory r (vpn va)))) va pid r s.memory).map fun x => { s with memory := x.2 }
  | .untrack kva => (removeFromActiveList kva s.memory).map fun m => { s with memory := m }
  | .shmGet r key => some { s with memory := (shmPageGet key r s.memory).2 }
  | .shmDt r addr => some { s with memory := shmPageDt addr r s.memory }
  | .give r va i => s.give r va i
  | .take r va i pid => s.take r va i pid

/-- The place is one of the user pages of a process. -/
def Has (s : Machine) (r v : ℕ) : Prop := r ∈ s.spaces ∧ v < userPages

instance (s : Machine) (r v : ℕ) : Decidable (s.Has r v) := inferInstanceAs (Decidable (_ ∧ _))

/-- When a call may be made. -/
def MayCall (s : Machine) : MemCall → Prop
  | .spawn => True
  | .exit r => r ∈ s.spaces ∧ LowIndices s.memory r
  -- faults are about pages that are not present
  | .fault r va => s.Has r (vpn va) ∧ ¬ Present (entry s.memory r (vpn va))
  | .provide r va => s.Has r (vpn va) ∧ ¬ Filled s.memory r (vpn va)
  | .touch r v => s.Has r v
  | .store r v _ _ => s.Has r v ∧ Present (entry s.memory r v)
  | .track r va _ => s.Has r (vpn va) ∧ Present (entry s.memory r (vpn va)) ∧ ¬ Shared (entry s.memory r (vpn va)) ∧
    ∀ i < maxAllowablePages, (s.memory.activePages i).valid →
      (s.memory.activePages i).kva ≠ target (entry s.memory r (vpn va))
  | .untrack _ => True
  -- nothing else is at the place of the shared page
  | .shmGet r key => r ∈ s.spaces ∧ ∀ i ∈ shmSlot key s.memory, ¬ Filled s.memory r (shmVpn i)
  | .shmDt r addr => s.Has r (vpn addr) ∧ (¬ Present (entry s.memory r (vpn addr)) ∨
    ∃ i < shmMaxNum, addr = shmVaBase + i * 4096 ∧ Shared (entry s.memory r (shmVpn i)))
  | .give r va i => s.Has r (vpn va) ∧ (s.pipes i).dataCount < pipeBufferSize
  | .take r va i _ => s.Has r (vpn va) ∧ (s.pipes i).dataCount ≠ 0 ∧ ¬ Filled s.memory r (vpn va)

/-- There is room for the pages that a call takes. -/
def Room (s : Machine) : Prop := s.memory.kernMemCurr + 3 * 4096 ≤ 2 ^ 64

instance (s : Machine) : Decidable s.Room := inferInstanceAs (Decidable (_ ≤ _))

/-- A call that may be made, while there is room. -/
def Ok (s : Machine) (a : MemCall) : Prop := s.Room ∧ s.MayCall a

instance (m : Memory) (r : ℕ) : Decidable (LowIndices m r) :=
  Nat.decidableBallLT userPages fun v _ => (getPte (v * 4096) r m ≠ none → v / 512 % 512 < 256) ∧
    (Filled m r v → v % 512 < 256)

instance (s : Machine) : ∀ a, Decidable (s.MayCall a)
  | .spawn => inferInstanceAs (Decidable True)
  | .exit _ => inferInstanceAs (Decidable (_ ∧ _))
  | .fault .. => inferInstanceAs (Decidable (_ ∧ _))
  | .provide .. => inferInstanceAs (Decidable (_ ∧ _))
  | .touch r v => inferInstanceAs (Decidable (s.Has r v))
  | .store .. => inferInstanceAs (Decidable (_ ∧ _))
  | .track r va _ => inferInstanceAs (Decidable (s.Has r (vpn va) ∧ Present (entry s.memory r (vpn va)) ∧
      ¬ Shared (entry s.memory r (vpn va)) ∧ ∀ i < maxAllowablePages, (s.memory.activePages i).valid → _ ≠ _))
  | .untrack _ => inferInstanceAs (Decidable True)
  | .shmGet r key => inferInstanceAs (Decidable (r ∈ s.spaces ∧ ∀ i ∈ shmSlot key s.memory, ¬ Filled s.memory r (shmVpn i)))
  | .shmDt r addr => inferInstanceAs (Decidable (s.Has r (vpn addr) ∧ (¬ Present (entry s.memory r (vpn addr)) ∨
      ∃ i < shmMaxNum, addr = shmVaBase + i * 4096 ∧ Shared (entry s.memory r (shmVpn i)))))
  | .give .. => inferInstanceAs (Decidable (_ ∧ _))
  | .take .. => inferInstanceAs (Decidable (_ ∧ _ ∧ _))

instance (s : Machine) (a : MemCall) : Decidable (s.Ok a) := inferInstanceAs (Decidable (_ ∧ _))

/-- What each page frame is used for. -/
structure Accounts (own : ℕ → Owner) (s : Machine) : Prop where
  tidy : Tidy s.memory own
  spaces : ∀ r, own r = .root ↔ r ∈ s.spaces
  ring : ∀ i, RingOk (s.pipes i)
  nodup : ∀ i, (framesOf (s.pipes i)).Nodup
  frames : ∀ i p, own p = .pipe i ↔ p ∈ framesOf (s.pipes i)

/-- What the processes have. -/
def view (s : Machine) : World where
  spaces := s.spaces
  cell r v := if s.Has r v then cell s.memory r v else .none
  slot i := if i < shmMaxNum then slotOf s.memory i else none
  pipe i := (framesOf (s.pipes i)).map (pageAt s.memory)

end Machine

end RiscvKernel.Sched
