import RiscvKernel.Sched.Agreement

/-!
# Choosing the CPUs of a process

`do_taskset` sets the CPUs on which a process may run, a new one or one that exists. A `Deed` is a step of the
system or a call of `do_taskset`. Each consists of a part in the kernel (`Course`: small steps, and perhaps another
mask) and then, unless it goes back to user mode, of `do_scheduler`.
-/

namespace RiscvKernel.Sched

open Lib Mm

/-- The end of `do_taskset`: the process with this pid gets the mask, and `true` says that `do_scheduler` is called. -/
def setMask (mask tarPid : ℤ) (s : Kernel) : Bool × Kernel :=
  match getPcb tarPid s with
  | none => (false, s)
  | some t =>
    let s := s.setPcb t { s.pcb t with mask := mask.toNat }
    (decide ((s.pcb t).status = .running) && !mask.toNat.testBit (s.pcb t).cpuid, s)

/-- `do_taskset` up to its return, or to `do_scheduler` (`true`). -/
def doTaskset (c : ℕ) (mask : ℤ) (name : Option CStr) (pid : ℤ) (s : Kernel) : Bool × Kernel :=
  -- a mask without any of the CPUs gives only a message
  if mask ≤ 0 then (false, s)
  else
    match name with
    | none => setMask mask pid s
    | some name => setMask mask (doExec c name s).1 (doExec c name s).2

/-- A step of the system, or `do_taskset` on CPU `c`. -/
inductive Deed
  | act (a : Act)
  | taskset (c : ℕ) (e : Env) (mask : ℤ) (name : Option CStr) (pid : ℤ)

namespace Deed

def cpu : Deed → ℕ
  | act a => a.cpu
  | taskset c .. => c

def now : Deed → ℕ
  | act a => a.env.now
  | taskset _ e .. => e.now

/-- The part up to the return to user mode (`inl`) or to `do_scheduler` (`inr`). After `do_scheduler`, nothing is left
to do of `do_taskset`, as of a yield. -/
def part (s : Kernel) : Deed → Option (Kernel ⊕ Kernel)
  | act a => segment s a
  | taskset c _ mask name pid =>
    let s := { s with kernelLock := some c }
    if (s.cur c).killed then ending c s
    else
      match doTaskset c mask name pid s with
      | (false, s) => some (.inl (leave c s))
      | (true, s) => some (.inr (s.setCont (s.current c) (.inCall .yield (.ret 0))))

/-- The state after a deed, `none` if the CPU never gets to the end of it. -/
def step (s : Kernel) : Deed → Option Kernel
  | act a => Sched.step s a
  | d@(taskset c e ..) => (d.part s).bind (Sum.elim some (doScheduler c e.now))

/-- A deed that the machine can do. -/
def Enabled (s : Kernel) : Deed → Prop
  | act a => Sched.Enabled s a
  | taskset c .. => s.kernelLock = none ∧ s.cont (s.current c) = .user ∧ Call.yield.madeBy (s.current c)

instance (s : Kernel) : ∀ d, Decidable (Enabled s d)
  | act a => inferInstanceAs (Decidable (Sched.Enabled s a))
  | taskset .. => inferInstanceAs (Decidable (_ ∧ _ ∧ _))

/-- A program that is started exists and there is room for it. -/
def ExecOk (s : Kernel) : Deed → Prop
  | act a => Sched.ExecOk s a
  | taskset c _ _ name _ => ∀ n ∈ name, (doExec c n s).1 ≠ 0

instance (s : Kernel) : ∀ d, Decidable (ExecOk s d)
  | act a => inferInstanceAs (Decidable (Sched.ExecOk s a))
  | taskset _ _ _ name _ => inferInstanceAs (Decidable (∀ n ∈ name, _))

/-- `clean_zombie` finds nobody to end. -/
def NoReap (s : Kernel) (d : Deed) : Prop := ∀ s1, d.part s = some (.inr s1) → ¬ Reaps d.now s1

instance (s : Kernel) (d : Deed) : Decidable (NoReap s d) :=
  match h : d.part s with
  | none => isTrue fun _ h1 => by rw [h] at h1; cases h1
  | some (.inl _) => isTrue fun _ h1 => by rw [h] at h1; cases h1
  | some (.inr s1) =>
    decidable_of_iff (¬ Reaps d.now s1) ⟨fun hr s2 h2 => by rw [h] at h2; cases h2; exact hr, fun hr => hr s1 h⟩

/-- A deed that comes to its end. -/
def Ok (s : Kernel) (d : Deed) : Prop := d.Enabled s ∧ d.step s ≠ none ∧ d.ExecOk s ∧ d.NoReap s

instance (s : Kernel) (d : Deed) : Decidable (Ok s d) := inferInstanceAs (Decidable (_ ∧ _ ∧ _ ∧ _))

/-- The state after a deed. -/
def next (s : Kernel) (d : Deed) : Kernel := (d.step s).getD s

theorem step_eq (s : Kernel) (d : Deed) : d.step s = (d.part s).bind (Sum.elim some (doScheduler d.cpu d.now)) := by
  cases d with
  | act a => exact Sched.step_eq
  | taskset => rfl

end Deed

/-! ## Masks -/

variable {c now : ℕ} {x : Option ℕ} {s s' s1 s2 : Kernel} {q q' : Queues} {t : Task} {d : Deed}

/-- Only the masks of processes, the log and the lock are others. -/
structure Masked (s s' : Kernel) : Prop where
  links : s'.links = s.links
  pcb : ∀ t, s'.pcb t = { s.pcb t with mask := (s'.pcb t).mask }
  current : s'.current = s.current
  processId : s'.processId = s.processId
  pipes : s'.pipes = s.pipes
  cont : s'.cont = s.cont
  log : ∃ es : List Event, s'.log = s.log ++ es ∧ ∀ ev ∈ es, ev.neutral

theorem Masked.refl (s : Kernel) : Masked s s :=
  ⟨rfl, fun _ => rfl, rfl, rfl, rfl, rfl, [], (List.append_nil _).symm, nofun⟩

theorem Masked.setMask (s : Kernel) (t : Task) (n : ℕ) : Masked s (s.setPcb t { s.pcb t with mask := n }) := by
  refine ⟨rfl, fun u => ?_, rfl, rfl, rfl, rfl, [], (List.append_nil _).symm, nofun⟩
  rw [setPcb_apply]
  split_ifs with e
  · rw [e]
  · rfl

theorem Masked.of_lock (s : Kernel) (k : Option ℕ) : Masked s { s with kernelLock := k } :=
  ⟨rfl, fun _ => rfl, rfl, rfl, rfl, rfl, [], (List.append_nil _).symm, nofun⟩

theorem Masked.addLog (s : Kernel) {ev : Event} (h : ev.neutral) : Masked s (s.addLog ev) :=
  ⟨rfl, fun _ => rfl, rfl, rfl, rfl, rfl, [ev], rfl, fun _ he => by rwa [List.mem_singleton.1 he]⟩

theorem Masked.status (K : Masked s s') (t : Task) : (s'.pcb t).status = (s.pcb t).status := by rw [K.pcb]

theorem Masked.pid (K : Masked s s') (t : Task) : (s'.pcb t).pid = (s.pcb t).pid := by rw [K.pcb]

theorem Masked.killed (K : Masked s s') (t : Task) : (s'.pcb t).killed = (s.pcb t).killed := by rw [K.pcb]

theorem Masked.mid (K : Masked s s') (H : Mid x s q) : Mid x s' q where
  rings := K.links ▸ H.rings
  ready {t} := by rw [K.status]; exact H.ready
  blocked {t} := by rw [K.status]; exact H.blocked
  idle a := by rw [K.status, K.pid]; exact H.idle a
  pid i := by rw [K.status, K.pid]; exact H.pid i
  exited {t} := by rw [K.status, K.current]; exact H.exited
  pipe := by rw [K.pipes]; exact H.pipe
  inj := by rw [K.current]; exact H.inj
  own := by rw [K.current]; exact H.own
  running {a} := by rw [K.current, K.status]; exact H.running

/-- Events that are not about queues. -/
theorem waiting_neutrals {h : Head} {es : List Event} (hn : ∀ ev ∈ es, ev.neutral) (log : List Event) :
    waiting h (log ++ es) = waiting h log := by
  induction es using List.reverseRecOn with
  | nil => rw [List.append_nil]
  | append_singleton es ev ih =>
    rw [← List.append_assoc, waiting_neutral (hn ev (by simp)), ih fun e he => hn e (by simp [he])]

theorem Fifo.neutrals {h : Head} {es log : List Event} (hf : Fifo h log) (hn : ∀ ev ∈ es, ev.neutral) : Fifo h (log ++ es) := by
  induction es using List.reverseRecOn with
  | nil => rwa [List.append_nil]
  | append_singleton es ev ih =>
    rw [← List.append_assoc]
    refine (ih fun e he => hn e (by simp [he])).append fun t ht => ?_
    have := hn ev (by simp)
    rw [ht] at this
    cases this

theorem Masked.good (K : Masked s s') (H : Good x s q) : Good x s' q := by
  obtain ⟨es, hl, hn⟩ := K.log
  refine ⟨K.mid H.mid, fun h h1 h2 => ?_, fun h h1 h2 => ?_, ?_, fun i => ?_, fun i j => ?_, fun a => ?_,
    fun u call point hu => ?_⟩
  · rw [hl, waiting_neutrals hn]
    exact H.log h h1 h2
  · rw [hl]
    exact (H.fifo h h1 h2).neutrals hn
  · rw [K.processId]
    exact H.processId
  · rw [K.status, K.pid, K.processId]
    exact H.pid i
  · rw [K.status, K.status, K.pid, K.pid]
    exact H.distinct i j
  · rw [K.killed]
    exact H.idle a
  · rw [K.cont] at hu
    obtain ⟨h1, h2⟩ := H.cont u call point hu
    exact ⟨h1, h2.mono fun i hv => by rwa [K.pipes]⟩

/-! ## The part of a deed in the kernel -/

/-- The part of a deed up to the return to user mode or to `do_scheduler`: the CPU has the lock, goes through small
steps, and some masks are set. -/
inductive Course (c : ℕ) (s : Kernel) (q : Queues) : Kernel ⊕ Kernel → Prop
  | leave {s0 s1 s2 : Kernel} {q1 : Queues} (h0 : Masked s s0)
    (hm : Micros c (fun _ => True) (s0, q) (s1, q1)) (h2 : Masked s1 s2) (hr : (s2.cur c).status = .running) :
    Course c s q (.inl (leave c s2))
  | switch {s0 s1 s2 : Kernel} {q1 : Queues} (h0 : Masked s s0) (hlock : s0.kernelLock = some c)
    (hm : Micros c (fun _ => True) (s0, q) (s1, q1)) (h2 : Masked s1 s2) (hl2 : s2.kernelLock = s1.kernelLock)
    {call : Call} {point : Point} (hc : call.madeBy (s2.current c)) (hf : Fits s2 call point)
    (hw : (s2.cur c).status = .exited → q1 (.wait (s2.current c)) = []) :
    Course c s q (.inr (s2.setCont (s2.current c) (.inCall call point)))

theorem Begins.masked {a : Act} {s0 : Kernel} {k : Option Call} (hb : Begins s a s0 k) (he : Enabled s a) :
    Masked s s0 ∧ s0.kernelLock = some a.cpu := by
  cases hb with
  | enter c e call =>
    have K := Masked.of_lock s (some c)
    exact ⟨⟨K.links, K.pcb, K.current, K.processId, K.pipes, K.cont, [.enter (s.current c) call], rfl,
      fun ev hev => by rw [List.mem_singleton.1 hev]; rfl⟩, rfl⟩
  | go => exact ⟨.refl s, he.1⟩
  | fresh => exact ⟨.refl s, he.1⟩

theorem Outcome.course {s0 : Kernel} {k : Option Call} {r : Kernel ⊕ Kernel} (ho : Outcome c k s0 q r)
    (h0 : Masked s s0) (hl : s0.kernelLock = some c) : Course c s q r := by
  cases ho with
  | leave hm hr hs =>
    rcases hs with rfl | ⟨call, v, -, rfl⟩
    · exact .leave h0 (hm.mono fun _ _ => trivial) (.refl _) hr
    · exact .leave h0 (hm.mono fun _ _ => trivial) (.addLog _ rfl) hr
  | switch hm hc hf hw => exact .switch h0 hl (hm.mono fun _ _ => trivial) (.refl _) rfl hc hf hw

theorem setMask_masked (mask tarPid : ℤ) (s : Kernel) :
    Masked s (setMask mask tarPid s).2 ∧ (setMask mask tarPid s).2.kernelLock = s.kernelLock := by
  unfold setMask
  cases getPcb tarPid s with
  | none => exact ⟨.refl s, rfl⟩
  | some t => exact ⟨.setMask s t _, rfl⟩

theorem doExec_lock (name : CStr) (k : Option ℕ) : (doExec c name { s with kernelLock := k }).1 = (doExec c name s).1 := by
  have hf : freeSlot { s with kernelLock := k } = freeSlot s := rfl
  rw [doExec, doExec, hf]
  cases freeSlot s with
  | none => rfl
  | some t =>
    dsimp only
    split_ifs <;> rfl

/-- **do_taskset** goes through the small steps of `do_exec`, if any, and sets a mask. -/
theorem doTaskset_micros (H : Good none s q) (hk : (s.cur c).killed = false) (mask pid : ℤ) {name : Option CStr}
    (hx : ∀ n ∈ name, (doExec c n s).1 ≠ 0) :
    ∃ (s1 : Kernel) (q1 : Queues), Micros c (fun _ => True) (s, q) (s1, q1) ∧ (s1.cur c).status = .running ∧
      Masked s1 (doTaskset c mask name pid s).2 ∧ (doTaskset c mask name pid s).2.kernelLock = s1.kernelLock := by
  have B := H.busy (c := c) hk
  unfold doTaskset
  split_ifs
  · exact ⟨s, q, .refl, B.running, .refl s, rfl⟩
  · cases name with
    | none => exact ⟨s, q, .refl, B.running, setMask_masked mask pid s⟩
    | some n =>
      have hm : (Call.exec n).madeBy (s.current c) := by cases s.current c <;> rfl
      have hp := syscall_part (e := ⟨0, fun _ => 0#8⟩) B hm H.processId
        (fun n' hn => by cases hn; exact hx n rfl) rfl
      obtain ⟨q1, hmi, hst⟩ := hp.ends
      have hr : ((doExec c n s).2.cur c).status = .running := hst.resolve_right fun h => by simp at h
      exact ⟨(doExec c n s).2, q1, hmi.mono fun _ _ => trivial, hr, setMask_masked _ _ _⟩

/-- **Every deed has its course.** -/
theorem Good.course (H : Good none s q) (he : d.Enabled s) (hx : d.ExecOk s) {r : Kernel ⊕ Kernel}
    (hs : d.part s = some r) : Course d.cpu s q r := by
  cases d with
  | act a =>
    obtain ⟨s0, k, hb, ho⟩ := segment_outcome H he hx hs
    obtain ⟨h0, hl⟩ := hb.masked he
    exact ho.course h0 hl
  | taskset c e mask name pid =>
    obtain ⟨-, -, hm⟩ := he
    have h0 := Masked.of_lock s (some c)
    have H0 := h0.good H
    generalize hs0 : { s with kernelLock := some c } = s0 at h0 H0
    have hlock : s0.kernelLock = some c := by rw [← hs0]
    have hm : Call.yield.madeBy (s0.current c) := by rwa [h0.current]
    simp only [Deed.part, hs0] at hs
    split_ifs at hs with hk
    · obtain ⟨i, hi⟩ := H0.cur_pcb hk
      have ho : Outcome c (some .yield) s0 q r :=
        ending_outcome H0.mid.weaken .refl (H0.mid.running (by simp)) ⟨i, hi⟩ hs
      exact ho.course h0 hlock
    · have hx : ∀ n ∈ name, (doExec c n s0).1 ≠ 0 := fun n hn => by
        rw [← hs0, doExec_lock]
        exact hx n hn
      obtain ⟨s1, q1, hmi, hr, K, hl⟩ := doTaskset_micros H0 (by simpa using hk) mask pid hx
      have hst : ((doTaskset c mask name pid s0).2.cur c).status = .running := by
        rw [Kernel.cur, K.status, K.current]
        exact hr
      have hcur : (doTaskset c mask name pid s0).2.current = s0.current := K.current.trans hmi.current
      generalize doTaskset c mask name pid s0 = r2 at hs K hl hst hcur
      obtain ⟨b, s2⟩ := r2
      cases b with
      | false =>
        cases hs
        exact .leave h0 hmi K hst
      | true =>
        cases hs
        refine .switch h0 hlock hmi K hl (by rwa [hcur]) trivial fun hx => ?_
        rw [hst] at hx
        cases hx

/-- A small step takes nobody out of the ready queue. -/
theorem Micro.ready_prefix {o : Obj} (hm : Micro c o s q s' q') : q .ready <+: q' .ready := by
  cases hm with
  | memory | sleepUntil | kill | key | mutex | cond | barrier | mbox | put | got | pipe | exit => exact List.prefix_rfl
  | create i p m l =>
    rw [push_self]
    exact List.prefix_append ..
  | block h l =>
    by_cases e : h = .ready
    · rw [e, push_self]
      exact List.prefix_append ..
    · rw [push_of_ne (Ne.symm e)]
  | wake h ts rest l =>
    have hr : movedAll q h rest ts .ready = q .ready ++ ts := Function.update_self ..
    rw [hr]
    exact List.prefix_append ..

theorem Micros.ready_prefix {P : Obj → Prop} {y z : Kernel × Queues} (hm : Micros c P y z) :
    y.2 .ready <+: z.2 .ready := by
  induction hm with
  | refl => exact List.prefix_rfl
  | tail _ hs ih =>
    obtain ⟨⟨o, -, hm⟩, -⟩ := hs
    exact ih.trans hm.ready_prefix

/-- Where the course of a deed ends; nobody has left the ready queue. -/
theorem Course.good_switch (C : Course c s q (.inr s1)) (H : Good none s q) :
    ∃ q1, Good (some c) s1 q1 ∧ ((s1.cur c).status = .exited → q1 (.wait (s1.current c)) = []) ∧
      q .ready <+: q1 .ready := by
  cases C with
  | switch h0 _ hm h2 _ hc hf hw =>
    refine ⟨_, (h2.good (hm.good (h0.good H).weaken)).setCont fun call point h => ?_, hw, hm.ready_prefix⟩
    cases h
    exact ⟨hc, hf⟩

theorem Course.good_leave (C : Course c s q (.inl s1)) (H : Good none s q) :
    ∃ q1, Good none s1 q1 ∧ q .ready <+: q1 .ready := by
  cases C with
  | leave h0 hm h2 hr => exact ⟨_, ((h2.good (hm.good (h0.good H).weaken)).settle hr).leave, hm.ready_prefix⟩

/-- **A deed** goes back to user mode or goes through `do_scheduler`. -/
theorem Good.deed_cases (H : Good none s q) (hok : d.Ok s) :
    (d.part s = some (.inl (d.next s)) ∧ ∃ q1, Good none (d.next s) q1 ∧ q .ready <+: q1 .ready) ∨
      ∃ s1 q1 q2, d.part s = some (.inr s1) ∧ Good (some d.cpu) s1 q1 ∧ q .ready <+: q1 .ready ∧ ¬ Reaps d.now s1 ∧
        doScheduler d.cpu d.now s1 = some (d.next s) ∧ Good none (d.next s) q2 ∧ Switched d.cpu s1 (d.next s) q1 q2 := by
  obtain ⟨he, hn, hx, hz⟩ := hok
  obtain ⟨s', hs⟩ := Option.ne_none_iff_exists'.1 hn
  have hnext : d.next s = s' := by rw [Deed.next, hs, Option.getD_some]
  rw [hnext]
  rw [Deed.step_eq] at hs
  obtain ⟨r, h1, h2⟩ := Option.bind_eq_some_iff.1 hs
  have C := H.course he hx h1
  cases r with
  | inl s1 =>
    cases h2
    exact Or.inl ⟨h1, C.good_leave H⟩
  | inr s1 =>
    obtain ⟨q1, H1, hw, hp⟩ := C.good_switch H
    obtain ⟨s2, q2, h3, H2, S⟩ := H1.mid.doScheduler hw (hz s1 h1)
    have h2 : doScheduler d.cpu d.now s1 = some s' := h2
    obtain rfl := Option.some.inj (h2.symm.trans h3)
    exact Or.inr ⟨s1, q1, q2, h1, H1, hp, hz s1 h1, h2, H1.switch H2 S, S⟩

/-- A deed keeps the invariant. -/
theorem Good.deed (H : Good none s q) (hok : d.Ok s) : ∃ q', Good none (d.next s) q' := by
  rcases H.deed_cases hok with ⟨-, q1, H1, -⟩ | ⟨-, -, q2, -, -, -, -, -, H2, -⟩
  · exact ⟨q1, H1⟩
  · exact ⟨q2, H2⟩

end RiscvKernel.Sched
