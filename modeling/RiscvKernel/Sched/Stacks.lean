import RiscvKernel.Mm.Root
import RiscvKernel.Sched.System

/-!
# The stacks of new processes and threads

What `init_pcb_stack` and `init_thread_stack` write on the user stack, and the registers a new process starts
with. Both fill the stack page through its kernel address and compute the user addresses on the side.
`execStack_argv` says that a process finds its arguments; a thread does not get the page that was mapped for it.
-/

namespace RiscvKernel.Sched

open Lib Mm

/-- The registers that a new process starts with: `sepc`, `sp`, `a0` and `a1`. -/
structure UserContext where
  sepc : ℕ
  sp : ℕ
  a0 : ℕ
  a1 : ℕ

/-! ## init_pcb_stack -/

/-- The loop of `init_pcb_stack`, from argument `i` on: both addresses of the last string and the memory. -/
def pushArgs (argvBaseKva : ℕ) : ℕ → List CStr → ℕ → ℕ → Memory → ℕ × ℕ × Memory
  | _, [], argBaseKva, argBaseUva, m => (argBaseKva, argBaseUva, m)
  | i, arg :: argv, argBaseKva, argBaseUva, m =>
    let argLen := arg.length
    let argBaseKva := argBaseKva - (argLen + 1)
    let argBaseUva := argBaseUva - (argLen + 1)
    let m := { m with mem := strcpy m.mem argBaseKva arg }
    let m := { m with mem := putLe m.mem (argvBaseKva + 8 * i) 8 argBaseUva }
    pushArgs argvBaseKva (i + 1) argv argBaseKva argBaseUva m

/-- `init_pcb_stack`; `argv` are the strings. -/
def initPcbStack (userStackKva entryPoint : ℕ) (argv : List CStr) (m : Memory) : UserContext × Memory :=
  let argc := argv.length
  let argvBaseKva := userStackKva - 8 * argc
  let argvBaseUva := userStackAddr - 8 * argc
  let (_, argBaseUva, m) := pushArgs argvBaseKva 0 argv argvBaseKva argvBaseUva m
  (⟨entryPoint, argBaseUva / 16 * 16, argc, argvBaseUva⟩, m)

/-- How `do_exec` makes the stack of a process with root table `pgdir`. -/
def execStack (entryPoint : ℕ) (argv : List CStr) (pgdir : ℕ) (m : Memory) : UserContext × Memory :=
  let (userStackBaseKva, m) := allocPageHelper (userStackAddr - pageSize) pgdir m
  initPcbStack (userStackBaseKva + pageSize) entryPoint argv m

/-! ## The program's view -/

/-- The byte at a user address. -/
def userByte (m : Memory) (r ua : ℕ) : Option Byte :=
  (getPte ua r m).bind fun a =>
    if Present (readPte m a) then some (m.mem (target (readPte m a) + ua % 4096)) else none

/-- The bytes at a user address. -/
def UserHolds (m : Memory) (r ua : ℕ) (bs : List Byte) : Prop :=
  ∀ k (h : k < bs.length), userByte m r (ua + k) = some bs[k]

/-- The bytes of a pointer. -/
def ptrBytes (p : ℕ) : List Byte := (List.range 8).map (leByte p)

/-- The process finds `argv`: its pointers and the strings are in the stack page, apart from each other, and the
stack begins below them. -/
structure ArgvArrives (m : Memory) (r : ℕ) (argv : List CStr) (x : UserContext) (ptr : ℕ → ℕ) : Prop where
  argc : x.a0 = argv.length
  pointers : ∀ i (_ : i < argv.length), UserHolds m r (x.a1 + 8 * i) (ptrBytes (ptr i))
  strings : ∀ i (h : i < argv.length), UserHolds m r (ptr i) (argv[i] ++ [0#8])
  array : userStackAddr - pageSize ≤ x.a1 ∧ x.a1 + 8 * argv.length = userStackAddr
  inside : ∀ i (h : i < argv.length), userStackAddr - pageSize ≤ ptr i ∧ ptr i + (argv[i].length + 1) ≤ x.a1
  apart : ∀ i j (hi : i < argv.length) (hj : j < argv.length), i ≠ j →
    ptr i + (argv[i].length + 1) ≤ ptr j ∨ ptr j + (argv[j].length + 1) ≤ ptr i
  sp : x.sp % 16 = 0 ∧ x.sp ≤ x.a1 ∧ ∀ i < argv.length, x.sp ≤ ptr i

section view
variable {m : Memory} {r ua v q : ℕ}

theorem userByte_of_present (hp : Present (entry m r (vpn ua))) :
    userByte m r ua = some (m.mem (target (entry m r (vpn ua)) + ua % 4096)) := by
  unfold userByte
  cases ha : getPte ua r m with
  | none =>
    have h0 : entry m r (vpn ua) = 0 := by
      unfold entry
      rw [← getPte_vpn, ha]
    rw [h0] at hp
    exact absurd hp not_present_zero
  | some a =>
    rw [entry_eq ha] at hp ⊢
    rw [Option.bind_some, if_pos hp]

/-- The bytes of a page that is mapped. -/
theorem userHolds_of_page (hv : v < 2 ^ 27) (hp : Present (entry m r v)) (ht : target (entry m r v) = q) {bs : List Byte}
    (h1 : v * 4096 ≤ ua) (h2 : ua + bs.length ≤ v * 4096 + 4096)
    (hbs : ∀ k (h : k < bs.length), m.mem (q + (ua - v * 4096) + k) = bs[k]) : UserHolds m r ua bs := by
  intro k hk
  have hvpn : vpn (ua + k) = v := by
    unfold vpn
    omega
  have hp' : Present (entry m r (vpn (ua + k))) := hvpn.symm ▸ hp
  have h := userByte_of_present hp'
  rw [hvpn, ht] at h
  refine h.trans (congrArg some ((congrArg m.mem ?_).trans (hbs k hk)))
  omega

end view

/-! ## The strings -/

/-- The room that strings with their terminators take. -/
def room (argv : List CStr) : ℕ := (argv.map fun a => a.length + 1).sum

section push
variable {b i k u : ℕ} {m : Memory} {argv : List CStr}

@[simp] theorem room_nil : room [] = 0 := rfl

@[simp] theorem room_cons (a : CStr) (argv : List CStr) : room (a :: argv) = a.length + 1 + room argv := by
  simp [room]

theorem pushArgs_uva : (pushArgs b i argv k u m).2.1 = u - room argv := by
  induction argv generalizing i k u m with
  | nil => rfl
  | cons a argv ih => rw [pushArgs, ih, room_cons, Nat.sub_sub]

/-- What is below the strings, between them and the array, and beside the rest of the array, is left alone. -/
theorem pushArgs_out {x : ℕ} (hk : room argv ≤ k) (h1 : x < k - room argv ∨ k ≤ x)
    (h2 : x < b + 8 * i ∨ b + 8 * (i + argv.length) ≤ x) : (pushArgs b i argv k u m).2.2.mem x = m.mem x := by
  induction argv generalizing i k u m with
  | nil => rfl
  | cons a argv ih =>
    rw [room_cons] at hk h1
    rw [List.length_cons] at h2
    rw [pushArgs, ih (by omega) (by omega) (by omega)]
    refine (putLe_out (by omega)).trans (strcpy_out (by omega))

/-- **The loop** stores every string, and its address in the array. -/
theorem pushArgs_in (hb : k ≤ b) (hk : room argv ≤ k) {j : ℕ} (hj : j < argv.length) :
    (∀ x ≤ argv[j].length,
      (pushArgs b i argv k u m).2.2.mem (k - room (argv.take (j + 1)) + x) = argv[j].getD x 0#8) ∧
    ∀ x < 8, (pushArgs b i argv k u m).2.2.mem (b + 8 * (i + j) + x) = leByte (u - room (argv.take (j + 1))) x := by
  induction argv generalizing i j k u m with
  | nil => exact absurd hj (Nat.not_lt_zero _)
  | cons a argv ih =>
    rw [room_cons] at hk
    cases j with
    | zero =>
      -- the first string and its address are not written again
      have hout {x : ℕ} (h1 : k - (a.length + 1) ≤ x) (h2 : x < b + 8 * (i + 1)) :
          (pushArgs b i (a :: argv) k u m).2.2.mem x =
            putLe (strcpy m.mem (k - (a.length + 1)) a) (b + 8 * i) 8 (u - (a.length + 1)) x := by
        rw [pushArgs]
        exact pushArgs_out (by omega) (by omega) (by omega)
      simp only [Nat.zero_add, List.take_succ_cons, List.take_zero, room_cons, room_nil, Nat.add_zero,
        List.getElem_cons_zero]
      refine ⟨fun x hx => ?_, fun x hx => ?_⟩
      · rw [hout (by omega) (by omega)]
        exact (putLe_out (by omega)).trans (strcpy_in hx)
      · rw [hout (by omega) (by omega)]
        exact putLe_in hx
    | succ j =>
      have hj' : j < argv.length := by simpa using hj
      have h := ih (i := i + 1) (k := k - (a.length + 1)) (u := u - (a.length + 1))
        (m := { m with mem := putLe (strcpy m.mem (k - (a.length + 1)) a) (b + 8 * i) 8 (u - (a.length + 1)) })
        (by omega) (by omega) hj'
      simp only [List.take_succ_cons, room_cons, List.getElem_cons_succ, ← Nat.sub_sub,
        show i + (j + 1) = i + 1 + j by omega]
      exact h

theorem getElem_terminated {s : CStr} {k : ℕ} (h : k < (s ++ [0#8]).length) : (s ++ [0#8])[k] = s.getD k 0#8 := by
  rw [List.getD_eq_getElem?_getD]
  by_cases hk : k < s.length
  · rw [List.getElem_append_left hk, List.getElem?_eq_getElem hk, Option.getD_some]
  · rw [List.getElem_append_right (by omega), List.getElem?_eq_none (by omega), Option.getD_none,
      List.getElem_singleton]

theorem room_take_le (argv : List CStr) (j : ℕ) : room (argv.take j) ≤ room argv := by
  induction argv generalizing j with
  | nil => simp
  | cons a argv ih =>
    cases j with
    | zero => simp
    | succ j =>
      have := ih j
      rw [List.take_succ_cons, room_cons, room_cons]
      omega

/-- The room up to a string and with it. -/
theorem room_take_succ {j : ℕ} (hj : j < argv.length) :
    room (argv.take (j + 1)) = room (argv.take j) + (argv[j].length + 1) := by
  rw [List.take_add_one, List.getElem?_eq_getElem hj, Option.toList_some, room, List.map_append, List.sum_append]
  simp [room]

theorem room_take_mono (argv : List CStr) {j l : ℕ} (h : j ≤ l) : room (argv.take j) ≤ room (argv.take l) := by
  have := room_take_le (argv.take l) j
  rwa [List.take_take, Nat.min_eq_left h] at this

end push

/-! ## The stack page -/

section stack
variable {m m' : Memory} {own own' : ℕ → Owner} {r va : ℕ}

/-- **alloc_page_helper** maps a page of zeros that is no table, whatever was at the address. -/
theorem allocPageHelper_maps (S : SpaceOk m own) (hr : own r = .root) (hv : vpn va < userPages)
    (hroom : m.kernMemCurr + 3 * 4096 ≤ 2 ^ 64) :
    ∃ own', HeapOwned (allocPageHelper va r m).2 own' ∧ TablesOk (allocPageHelper va r m).2 own' ∧ own' r = .root ∧
      own' (allocPageHelper va r m).1 = .data r (vpn va) ∧
      Present (entry (allocPageHelper va r m).2 r (vpn va)) ∧
      target (entry (allocPageHelper va r m).2 r (vpn va)) = (allocPageHelper va r m).1 := by
  obtain ⟨S1, F1, -, -, hq, hcurr⟩ := S.alloc (by omega)
  rw [allocPageHelper_eq]
  dsimp only
  generalize (allocPage 1 m).1 = q at *
  generalize (allocPage 1 m).2 = m1 at *
  have hkernel : Function.update own q Owner.kernel q = .kernel := Function.update_self _ _ _
  obtain ⟨S2, F2⟩ := S1.scribble (p := q) (by rw [hkernel]; exact ⟨nofun, nofun⟩) (by rw [hkernel]; exact id)
    (fun a ha => clearPage_mem ha) (clearPage_rest q m1) rfl rfl rfl
  have hr2 := ((F1.trans F2).root r).2 hr
  obtain ⟨own3, H3, T3, ho, M⟩ := mapPage_mapped S2 hr2 hv
    (show mapFlags (pagePresent ||| pageRead ||| pageWrite ||| pageExec ||| pageUser) < 1024 by decide)
    (by show m1.kernMemCurr + _ ≤ _; omega) (.data r (vpn va)) (Or.inl ⟨hkernel, rfl, by decide⟩)
  refine ⟨own3, H3, T3, (M.frame.root r).2 hr2, ho, ?_, ?_⟩
  · rw [M.entry]
    exact present_mapped
  · rw [M.entry]
    exact target_mkEntry hq (by decide)

/-- Writes to a page that is no table keep the entries. -/
theorem entry_of_page {q v : ℕ} (H : HeapOwned m own) (T : TablesOk m own) (hr : own r = .root) (hv : v < userPages)
    (hu : own q ≠ .unused) (hq : ¬ (own q).IsTable) (hmem : ∀ a, ¬ InPage q a → m'.mem a = m.mem a) :
    entry m' r v = entry m r v := by
  have hpages (p : ℕ) (hp : (own p).IsTable) (a : ℕ) (ha : InPage p a) : m'.mem a = m.mem a := by
    refine hmem a fun hqa => ?_
    obtain rfl := inPage_unique (H.aligned p hp.used.1) (H.aligned q hu) ha hqa
    exact hq hp
  have T' : TablesOk m' own := T.congr H.aligned (fun p hne => absurd rfl hne) hpages
  exact (T.same T' H.aligned (fun _ _ => rfl) (fun p _ _ hp => hpages p (by rw [hp]; trivial)) hr hv).2

end stack

theorem vpn_stack : vpn (userStackAddr - pageSize) = 0xf0000f := by decide

/-- **argv arrives.** -/
theorem execStack_argv {m : Memory} {own : ℕ → Owner} {r : ℕ} (S : SpaceOk m own) (hr : own r = .root)
    (hroom : m.kernMemCurr + 3 * 4096 ≤ 2 ^ 64) (entryPoint : ℕ) {argv : List CStr}
    (hfit : 8 * argv.length + (argv.map fun a => a.length + 1).sum ≤ pageSize) :
    ∃ ptr, ArgvArrives (execStack entryPoint argv r m).2 r argv (execStack entryPoint argv r m).1 ptr := by
  change 8 * argv.length + room argv ≤ 4096 at hfit
  have huser : vpn (userStackAddr - pageSize) < userPages := by
    rw [vpn_stack]
    norm_num
  obtain ⟨own', H, T, hr', ho, hp, ht⟩ := allocPageHelper_maps S hr huser hroom
  have hpage : IsPage (allocPageHelper (userStackAddr - pageSize) r m).1 := H.isPage (by rw [ho]; nofun)
  unfold execStack initPcbStack
  rw [vpn_stack] at *
  generalize allocPageHelper (userStackAddr - pageSize) r m = x at *
  obtain ⟨q, m1⟩ := x
  dsimp only at *
  have hq := hpage.2.1
  generalize hx : pushArgs (q + pageSize - 8 * argv.length) 0 argv (q + pageSize - 8 * argv.length)
    (userStackAddr - 8 * argv.length) m1 = x
  have huva : x.2.1 = userStackAddr - 8 * argv.length - room argv := by rw [← hx, pushArgs_uva]
  have hmem (a : ℕ) (ha : ¬ InPage q a) : x.2.2.mem a = m1.mem a := by
    unfold InPage at ha
    rw [← hx]
    unfold pageSize at *
    exact pushArgs_out (by omega) (by omega) (by omega)
  have hin {j : ℕ} (hj : j < argv.length) := pushArgs_in (b := q + pageSize - 8 * argv.length) (i := 0)
    (u := userStackAddr - 8 * argv.length) (m := m1) le_rfl (by unfold pageSize; omega) hj
  rw [hx] at hin
  have hentry : entry x.2.2 r 0xf0000f = entry m1 r 0xf0000f :=
    entry_of_page H T hr' (by norm_num) (by rw [ho]; nofun) (by rw [ho]; exact id) hmem
  -- user addresses of the page, as offsets in it
  have hholds {ua : ℕ} {bs : List Byte} (h1 : 0xf0000f * 4096 ≤ ua) (h2 : ua + bs.length ≤ 0xf0000f * 4096 + 4096)
      (hbs : ∀ k (h : k < bs.length), x.2.2.mem (q + (ua - 0xf0000f * 4096) + k) = bs[k]) : UserHolds x.2.2 r ua bs :=
    userHolds_of_page (by norm_num) (by rw [hentry]; exact hp) (by rw [hentry]; exact ht) h1 h2 hbs
  have hstack : userStackAddr = 0xf0000f * 4096 + 4096 := rfl
  have hpsize : pageSize = 4096 := rfl
  have htake (j : ℕ) : room (argv.take (j + 1)) ≤ room argv := room_take_le argv _
  obtain ⟨a1, ha1⟩ : ∃ a1, a1 = userStackAddr - 8 * argv.length := ⟨_, rfl⟩
  rw [← ha1] at huva hin ⊢
  refine ⟨fun j => a1 - room (argv.take (j + 1)), rfl, fun j hj => ?_, fun j hj => ?_, ⟨?_, ?_⟩, fun j hj => ?_,
    fun j l hj hl hne => ?_, ?_, ?_, fun j hj => ?_⟩
  · show UserHolds x.2.2 r (a1 + 8 * j) (ptrBytes (a1 - room (argv.take (j + 1))))
    refine hholds (by omega) (by simp only [ptrBytes, List.length_map, List.length_range]; omega) fun k hk => ?_
    have hk8 : k < 8 := by simpa [ptrBytes] using hk
    have h := (hin hj).2 k hk8
    simp only [ptrBytes, List.getElem_map, List.getElem_range]
    exact (congrArg x.2.2.mem (by omega)).trans h
  · show UserHolds x.2.2 r (a1 - room (argv.take (j + 1))) (argv[j] ++ [0#8])
    have hsucc := room_take_succ hj
    have hj1 := htake j
    refine hholds (by omega) (by rw [List.length_append, List.length_singleton]; omega) fun k hk => ?_
    rw [getElem_terminated]
    rw [List.length_append, List.length_singleton] at hk
    exact (congrArg x.2.2.mem (by omega)).trans ((hin hj).1 k (by omega))
  · show userStackAddr - pageSize ≤ a1
    omega
  · show a1 + 8 * argv.length = userStackAddr
    omega
  · show userStackAddr - pageSize ≤ a1 - room (argv.take (j + 1)) ∧ a1 - room (argv.take (j + 1)) + (argv[j].length + 1) ≤ a1
    have hsucc := room_take_succ hj
    have hj1 := htake j
    omega
  · show a1 - room (argv.take (j + 1)) + (argv[j].length + 1) ≤ a1 - room (argv.take (l + 1)) ∨
      a1 - room (argv.take (l + 1)) + (argv[l].length + 1) ≤ a1 - room (argv.take (j + 1))
    have hsj := room_take_succ hj
    have hsl := room_take_succ hl
    have hj1 := htake j
    have hl1 := htake l
    rcases Nat.lt_or_gt_of_ne hne with hlt | hgt
    · have := room_take_mono argv (show j + 1 ≤ l by omega)
      omega
    · have := room_take_mono argv (show l + 1 ≤ j by omega)
      omega
  · exact Nat.mul_mod_left _ _
  · show x.2.1 / 16 * 16 ≤ a1
    omega
  · show x.2.1 / 16 * 16 ≤ a1 - room (argv.take (j + 1))
    have hj1 := htake j
    omega

/-- For the arguments `ls` and `-a` of a new address space. -/
theorem execStack_argv_ls : ∃ ptr, ArgvArrives
    (execStack 0x10000 [[108#8, 115#8], [45#8, 97#8]] (allocPage 1 startMemory).1 (newSpace startMemory)).2
    (allocPage 1 startMemory).1 [[108#8, 115#8], [45#8, 97#8]]
    (execStack 0x10000 [[108#8, 115#8], [45#8, 97#8]] (allocPage 1 startMemory).1 (newSpace startMemory)).1 ptr := by
  have hstart : startMemory.kernMemCurr = 0xffffffc052001000 := rfl
  obtain ⟨own', S, hr, -, -, hcurr⟩ := newSpace_spec startMemory_start.spaceOk (by rw [hstart]; norm_num)
  rw [hstart] at hcurr
  exact execStack_argv S hr ((Nat.add_le_add_right hcurr _).trans (by norm_num)) 0x10000 (by decide)

/-! ## init_thread_stack -/

/-- The registers that a new thread starts with: `sepc`, `sp` and `a0`. -/
structure ThreadContext where
  sepc : ℕ
  sp : ℕ
  a0 : ℕ

/-- `init_thread_stack`; `arg` are the bytes of the argument. -/
def initThreadStack (threadStackKva threadStackUva entryPoint : ℕ) (arg : List Byte) (m : Memory) :
    ThreadContext × Memory :=
  let argBaseKva := threadStackKva - arg.length
  let m := { m with mem := blit m.mem argBaseKva (fun i => arg.getD i 0#8) 0 arg.length }
  let newUserSpKva := argBaseKva / 16 * 16
  let totalOffset := threadStackKva - newUserSpKva
  let newUserSpUva := threadStackUva - totalOffset
  let argOffset := threadStackKva - argBaseKva
  let argBaseUva := threadStackUva - argOffset
  (⟨entryPoint, newUserSpUva, argBaseUva⟩, m)

/-- `thread_stack_base_uva` in `do_thread_create`; the product is an `int`. -/
def threadStackBaseUva (pid : ℤ) : ℕ := (userStackAddr - pageSize - i32 (pid * pageSize)).toNat

/-- `do_thread_create` with the argument: the pid and the registers of the thread. -/
def doThreadCreateArg (c startRoutine : ℕ) (arg : List Byte) (s : Kernel) : Option (ℤ × ThreadContext × Kernel) :=
  match freeSlot s with
  | none => none
  | some t =>
    let pid := s.processId
    let p := s.cur c
    let s := { s with processId := s.processId + 1 }.setPcb t
      { s.pcb t with
        pid := pid
        status := .ready
        threadGroupId := p.pid
        killed := false
        mask := p.mask
        dirInode := p.dirInode
        pgdirKva := p.pgdirKva }
    let stackBase := threadStackBaseUva pid
    let page := allocPageHelper (stackBase - pageSize) p.pgdirKva s.memory
    let stack := initThreadStack (page.1 + pageSize) (stackBase + pageSize) startRoutine arg page.2
    let s := ((s.setMemory stack.2).setCont t .fresh).addLog (.create t)
    let s := initQueue (.inr (.wait t)) (initQueue (.inl t) s)
    some (pid, stack.1, enqueue t .ready s)

/-- The thread finds its argument, its stack is the page that has been mapped for it, and no other thread of the
process has this page. -/
structure ThreadArrives (s' : Kernel) (r : ℕ) (pid : ℤ) (arg : List Byte) (x : ThreadContext) : Prop where
  arg : UserHolds s'.memory r x.a0 arg
  aligned : x.sp % 16 = 0
  page : threadStackBaseUva pid - pageSize ≤ x.sp ∧ x.sp ≤ threadStackBaseUva pid
  below : x.sp ≤ x.a0
  main : threadStackBaseUva pid ≠ userStackAddr
  distinct : ∀ i, (s'.pcb (.pcb i)).status ≠ .exited → (s'.pcb (.pcb i)).threadGroupId ≠ 0 →
    (s'.pcb (.pcb i)).pgdirKva = r → (s'.pcb (.pcb i)).pid ≠ pid →
    threadStackBaseUva (s'.pcb (.pcb i)).pid ≠ threadStackBaseUva pid

section thread
variable {c startRoutine : ℕ} {arg : List Byte} {s s' : Kernel} {pid : ℤ} {x : ThreadContext}

/-- What a call that succeeds returns. -/
theorem doThreadCreateArg_eq (h : doThreadCreateArg c startRoutine arg s = some (pid, x, s')) :
    ∃ kva m, x = (initThreadStack (kva + pageSize) (threadStackBaseUva pid + pageSize) startRoutine arg m).1 := by
  unfold doThreadCreateArg at h
  split at h
  · cases h
  · obtain ⟨hpid, hx⟩ := Prod.mk.inj (Option.some.inj h)
    obtain ⟨hx, -⟩ := Prod.mk.inj hx
    rw [← hpid]
    exact ⟨_, _, hx.symm⟩

/-- The product does not overflow for the first half million of processes. -/
theorem threadStackBaseUva_eq (h0 : -1 ≤ pid) (h1 : pid < 2 ^ 19) :
    threadStackBaseUva pid = (userStackAddr - pageSize - pid * pageSize).toNat := by
  have hi : i32 (pid * pageSize) = pid * pageSize := by
    unfold i32 pageSize
    refine Int.bmod_eq_of_le ?_ ?_ <;> push_cast <;> omega
  rw [threadStackBaseUva, hi]

/-- The scheduler's model of the call leaves out the argument. -/
theorem doThreadCreate_eq (h0 : 0 ≤ s.processId) (h1 : s.processId < 2 ^ 19)
    (h : doThreadCreateArg c startRoutine arg s = some (pid, x, s')) :
    doThreadCreate c s = (pid, s'.setMemory
      (allocPageHelper (threadStackBaseUva pid - pageSize) (s.cur c).pgdirKva s.memory).2) := by
  have hbase := threadStackBaseUva_eq (show -1 ≤ s.processId by omega) h1
  unfold doThreadCreateArg at h
  unfold doThreadCreate
  cases ht : freeSlot s with
  | none =>
    rw [ht] at h
    cases h
  | some t =>
    rw [ht] at h
    obtain ⟨rfl, hx⟩ := Prod.mk.inj (Option.some.inj h)
    obtain ⟨-, rfl⟩ := Prod.mk.inj hx
    dsimp only [Kernel.setPcb]
    rw [hbase]
    generalize allocPageHelper ((userStackAddr - pageSize - s.processId * pageSize : ℤ).toNat - pageSize)
      (s.cur c).pgdirKva s.memory = y
    obtain ⟨kva, m⟩ := y
    rfl

/-- **The stack of a thread** begins above the page that has been mapped for it. -/
theorem threadStack_above (kva stackBase : ℕ) (m : Memory) (hlen : arg.length ≤ 4080) :
    stackBase < (initThreadStack (kva + pageSize) (stackBase + pageSize) startRoutine arg m).1.sp := by
  unfold initThreadStack
  dsimp only
  unfold pageSize
  omega

theorem doThreadCreateArg_above (hlen : arg.length ≤ 4080)
    (h : doThreadCreateArg c startRoutine arg s = some (pid, x, s')) : threadStackBaseUva pid < x.sp := by
  obtain ⟨kva, m, rfl⟩ := doThreadCreateArg_eq h
  exact threadStack_above kva _ m hlen

/-- **No thread gets the stack page** that has been mapped for it. -/
theorem doThreadCreateArg_never (hlen : arg.length ≤ 4080)
    (h : doThreadCreateArg c startRoutine arg s = some (pid, x, s')) :
    ¬ ThreadArrives s' (s.cur c).pgdirKva pid arg x :=
  fun ha => absurd ha.page.2 (not_le.2 (doThreadCreateArg_above hlen h))

end thread

/-- The page in which the stack of a thread begins is the one that was mapped for the thread with the pid
before, or the main stack. -/
theorem threadStack_neighbour {pid : ℤ} (h0 : 0 ≤ pid) (h1 : pid < 2 ^ 19) :
    threadStackBaseUva pid = threadStackBaseUva (pid - 1) - pageSize := by
  rw [threadStackBaseUva_eq (by omega) h1, threadStackBaseUva_eq (by omega) (by omega)]
  unfold userStackAddr pageSize
  omega

/-- The program `a` runs on CPU 0. -/
def oneProcess : Kernel := (twoProcesses.take 3).foldl next boot

theorem oneProcess_creates : (doThreadCreateArg 0 0x10400 [1#8, 2#8, 3#8, 4#8] oneProcess).isSome := by
  decide +kernel

/-- The process creates a thread with an argument of four bytes. -/
theorem threadArg_lost : ¬ ∀ c startRoutine (arg : List Byte) s pid x s', arg.length ≤ 4080 →
    doThreadCreateArg c startRoutine arg s = some (pid, x, s') →
    ThreadArrives s' (s.cur c).pgdirKva pid arg x := by
  intro hall
  obtain ⟨⟨pid, x, s'⟩, h⟩ := Option.isSome_iff_exists.1 oneProcess_creates
  have ha := hall 0 0x10400 [1#8, 2#8, 3#8, 4#8] oneProcess pid x s' (by decide) h
  exact absurd ha.page.2 (not_le.2 (doThreadCreateArg_above (by decide) h))

/-- For this thread. -/
theorem doThreadCreateArg_never_one : ∃ pid x s',
    doThreadCreateArg 0 0x10400 [1#8, 2#8, 3#8, 4#8] oneProcess = some (pid, x, s') ∧
      ¬ ThreadArrives s' (oneProcess.cur 0).pgdirKva pid [1#8, 2#8, 3#8, 4#8] x := by
  obtain ⟨⟨pid, x, s'⟩, h⟩ := Option.isSome_iff_exists.1 oneProcess_creates
  exact ⟨pid, x, s', h, doThreadCreateArg_never (by decide) h⟩

end RiscvKernel.Sched
