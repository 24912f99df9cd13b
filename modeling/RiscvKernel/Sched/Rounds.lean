import RiscvKernel.Sched.Machine

/-!
# The pipe calls are runs

The loops of `sys_pipe_give_pages` and `sys_pipe_take_pages` move one page after the other, and wake up
processes in between, which does not change the memory. So each call, up to its return or to `do_scheduler`, is a
run of the machine.
-/

namespace RiscvKernel.Sched

open Lib Mm Refine

variable {s s' : Kernel} {c i src dst length r fuel : ℕ} {pid : ℤ} {h : Head} {o : Out} {σ : Finset ℕ}

/-- The memory and the pipes of the kernel, with the root tables in `σ`. -/
def machineOf (σ : Finset ℕ) (s : Kernel) : Machine := ⟨s.memory, s.pipes, σ⟩

/-- `wakeup` keeps the process ids. -/
theorem wakeupFrom_pid (fuel : ℕ) (n : Node) (s : Kernel) (hs : wakeupFrom h fuel n s = some s') (t : Task) :
    (s'.pcb t).pid = (s.pcb t).pid := by
  induction fuel generalizing n s with
  | zero => cases hs
  | succ fuel ih =>
    cases n with
    | inl u =>
      refine (ih _ (doUnblock u s) hs).trans ?_
      show (Function.update s.pcb u { s.pcb u with status := .ready } t).pid = _
      by_cases ht : t = u
      · rw [ht, Function.update_self]
      · rw [Function.update_of_ne ht]
    | inr g =>
      rw [wakeupFrom] at hs
      split_ifs at hs
      cases hs
      rfl

/-- What `wakeup` keeps of the process that runs. -/
theorem wakeupIf_cur (hs : wakeupIf h s = some s') (c : ℕ) :
    machineOf σ s' = machineOf σ s ∧ (s'.cur c).pgdirKva = (s.cur c).pgdirKva ∧ (s'.cur c).pid = (s.cur c).pid := by
  obtain ⟨hmem, hpipes, hcur, hpg⟩ := wakeupIf_keeps hs
  have hpid (t : Task) : (s'.pcb t).pid = (s.pcb t).pid := by
    unfold wakeupIf at hs
    split_ifs at hs
    · exact wakeupFrom_pid _ _ _ hs t
    · cases hs
      rfl
  refine ⟨?_, ?_, ?_⟩
  · unfold machineOf
    rw [hmem, hpipes]
  · show (s'.pcb (s'.current c)).pgdirKva = (s.pcb (s.current c)).pgdirKva
    rw [hcur, hpg]
  · show (s'.pcb (s'.current c)).pid = (s.pcb (s.current c)).pid
    rw [hcur, hpid]

/-! ## Giving -/

/-- The pages `d`, …, `d + n - 1` are given. -/
def gives (r src i d n : ℕ) : List MemCall := (List.range' d n).map fun k => .give r (src + k * pageSize) i

theorem gives_succ (r src i d n : ℕ) : gives r src i d (n + 1) = .give r (src + d * pageSize) i :: gives r src i (d + 1) n := by
  unfold gives
  rw [List.range'_succ, List.map_cons]

theorem step_give_none {t : Machine} {va : ℕ} {m : Memory} (h : unmapPage va r t.memory = some (none, m)) :
    t.step (.give r va i) = some { t with memory := m } := by
  show (unmapPage va r t.memory).map _ = _
  rw [h]
  rfl

theorem step_give_some {t : Machine} {va pa : ℕ} {m : Memory} (h : unmapPage va r t.memory = some (some pa, m)) :
    t.step (.give r va i) = some { t with
      memory := m, pipes := Function.update t.pipes i (pushPage pa (t.pipes i)) } := by
  show (unmapPage va r t.memory).map _ = _
  rw [h]
  rfl

/-- A round that is about a page gives it. -/
theorem giveRound_step {d : ℕ} {o : Round} (hr : (s.cur c).pgdirKva = r)
    (hs : giveRound c i src length d s = some (o, s')) :
    ((o = .ended ∨ o = .blocked) ∧ machineOf σ s' = machineOf σ s) ∨
    ((o = .failed ∨ o = .moved) ∧ (s'.cur c).pgdirKva = r ∧
      (machineOf σ s).step (.give r (src + d * pageSize) i) = some (machineOf σ s')) := by
  unfold giveRound at hs
  split_ifs at hs with h1 h2
  · cases hs
    exact Or.inl ⟨Or.inr rfl, rfl⟩
  · rw [Int.toNat_natCast, hr] at hs
    cases hm : unmapPage (src + d * pageSize) r s.memory with
    | none =>
      rw [hm] at hs
      cases hs
    | some x =>
      obtain ⟨pa, m⟩ := x
      rw [hm] at hs
      refine Or.inr ?_
      cases pa with
      | none =>
        cases hs
        exact ⟨Or.inl rfl, hr, step_give_none (t := machineOf σ s) hm⟩
      | some pa =>
        simp only [Option.bind_eq_bind, Option.bind_some, Option.bind_eq_some_iff] at hs
        obtain ⟨s1, hw, hs⟩ := hs
        cases hs
        obtain ⟨hmach, hpg, -⟩ := wakeupIf_cur (σ := σ) hw c
        exact ⟨Or.inr rfl, hpg.trans hr, hmach ▸ step_give_some (t := machineOf σ s) hm⟩
  · cases hs
    exact Or.inl ⟨Or.inl rfl, rfl⟩

/-- **The loop of sys_pipe_give_pages.** -/
theorem pipeGiveLoop_exec {d : ℕ} (hr : (s.cur c).pgdirKva = r)
    (hs : pipeGiveLoop c i src length fuel d s = some (o, s')) :
    ∃ n, exec Machine.step (machineOf σ s) (gives r src i d n) = some (machineOf σ s') := by
  induction fuel generalizing d s with
  | zero =>
    rw [pipeGiveLoop] at hs
    cases hs
  | succ fuel ih =>
    rw [pipeGiveLoop_succ, Option.bind_eq_some_iff] at hs
    obtain ⟨⟨o1, s1⟩, hround, hs⟩ := hs
    rcases giveRound_step (σ := σ) hr hround with ⟨rfl | rfl, hsame⟩ | ⟨rfl | rfl, hr1, hstep⟩
    · cases hs
      exact ⟨0, congrArg some hsame.symm⟩
    · cases hs
      exact ⟨0, congrArg some hsame.symm⟩
    · cases hs
      refine ⟨1, ?_⟩
      rw [gives_succ, exec, hstep]
      rfl
    · obtain ⟨n, hn⟩ := ih (d := d + 1) hr1 hs
      refine ⟨n + 1, ?_⟩
      rw [gives_succ, exec, hstep, Option.bind_some, hn]

/-! ## Taking -/

/-- The pages are put at the pages `d`, …, `d + n - 1`. -/
def takes (r dst i : ℕ) (pid : ℤ) (d n : ℕ) : List MemCall :=
  (List.range' d n).map fun k => .take r (dst + k * pageSize) i pid

theorem takes_succ (r dst i : ℕ) (pid : ℤ) (d n : ℕ) :
    takes r dst i pid d (n + 1) = .take r (dst + d * pageSize) i pid :: takes r dst i pid (d + 1) n := by
  unfold takes
  rw [List.range'_succ, List.map_cons]

theorem step_take {t : Machine} {va : ℕ} {x : Bool × Memory}
    (h : addToActiveList ((t.pipes i).pageBuffer (t.pipes i).tail) va pid r
      (mapPage va ((t.pipes i).pageBuffer (t.pipes i).tail) r userFlags t.memory) = some x) :
    t.step (.take r va i pid) = some { t with
      memory := x.2, pipes := Function.update t.pipes i (popPage (t.pipes i)) } := by
  show (addToActiveList _ va pid r _).map _ = _
  rw [h]
  rfl

/-- One round of the loop of `sys_pipe_take_pages`: the page is mapped and listed. -/
def takeRound (c i dst : ℕ) (d : ℕ) (s : Kernel) : Option (Bool × Kernel) :=
  let pa := (s.pipes i).pageBuffer (s.pipes i).tail
  let va := dst + d * pageSize
  (addToActiveList pa va (s.cur c).pid (s.cur c).pgdirKva (mapPage va pa (s.cur c).pgdirKva userFlags s.memory)).map
    fun x => (x.1, (s.setPipe i (popPage (s.pipes i))).setMemory x.2)

theorem pipeTakeLoop_succ {d : ℕ} : pipeTakeLoop c i dst length (fuel + 1) d s =
    if (d : ℤ) < i32 (length / pageSize : ℕ) then
      if (s.pipes i).dataCount = 0 then some (.sched (.take d), pipeBlock (s.current c) i s)
      else (takeRound c i dst d s).bind fun x =>
        if x.1 then (wakeupIf (.pipe i) x.2).bind fun s => pipeTakeLoop c i dst length fuel (d + 1) s
        else some (.exit, x.2)
    else some (.ret length, s) := by
  rw [pipeTakeLoop, takeRound, Int.toNat_natCast]
  split_ifs
  · rfl
  · show (addToActiveList ((s.pipes i).pageBuffer (s.pipes i).tail) (dst + d * pageSize) (s.cur c).pid (s.cur c).pgdirKva
        (mapPage (dst + d * pageSize) ((s.pipes i).pageBuffer (s.pipes i).tail) (s.cur c).pgdirKva userFlags s.memory)).bind _ = _
    cases addToActiveList ((s.pipes i).pageBuffer (s.pipes i).tail) (dst + d * pageSize) (s.cur c).pid (s.cur c).pgdirKva
        (mapPage (dst + d * pageSize) ((s.pipes i).pageBuffer (s.pipes i).tail) (s.cur c).pgdirKva userFlags s.memory) with
    | none => rfl
    | some x =>
      obtain ⟨ok, m⟩ := x
      cases ok <;> rfl
  · rfl

/-- A round takes a page. -/
theorem takeRound_step {d : ℕ} {ok : Bool} (hr : (s.cur c).pgdirKva = r) (hpid : (s.cur c).pid = pid)
    (hs : takeRound c i dst d s = some (ok, s')) :
    (s'.cur c).pgdirKva = r ∧ (s'.cur c).pid = pid ∧
      (machineOf σ s).step (.take r (dst + d * pageSize) i pid) = some (machineOf σ s') := by
  unfold takeRound at hs
  rw [hr, hpid] at hs
  obtain ⟨x, hx, hs⟩ := Option.map_eq_some_iff.1 hs
  cases hs
  exact ⟨hr, hpid, step_take (t := machineOf σ s) hx⟩

/-- **The loop of sys_pipe_take_pages.** -/
theorem pipeTakeLoop_exec {d : ℕ} (hr : (s.cur c).pgdirKva = r) (hpid : (s.cur c).pid = pid)
    (hs : pipeTakeLoop c i dst length fuel d s = some (o, s')) :
    ∃ n, exec Machine.step (machineOf σ s) (takes r dst i pid d n) = some (machineOf σ s') := by
  induction fuel generalizing d s with
  | zero =>
    rw [pipeTakeLoop] at hs
    cases hs
  | succ fuel ih =>
    rw [pipeTakeLoop_succ] at hs
    split_ifs at hs with h1 h2
    · cases hs
      exact ⟨0, rfl⟩
    · obtain ⟨⟨ok, s1⟩, hround, hs⟩ := Option.bind_eq_some_iff.1 hs
      obtain ⟨hr1, hpid1, hstep⟩ := takeRound_step (σ := σ) hr hpid hround
      cases ok with
      | false =>
        cases hs
        refine ⟨1, ?_⟩
        rw [takes_succ, exec, hstep]
        rfl
      | true =>
        obtain ⟨s2, hw, hs⟩ := Option.bind_eq_some_iff.1 hs
        obtain ⟨hmach, hpg, hp⟩ := wakeupIf_cur (σ := σ) hw c
        obtain ⟨n, hn⟩ := ih (d := d + 1) (hpg.trans hr1) (hp.trans hpid1) hs
        refine ⟨n + 1, ?_⟩
        rw [takes_succ, exec, hstep, Option.bind_some, ← hmach, hn]
    · cases hs
      exact ⟨0, rfl⟩

end RiscvKernel.Sched
