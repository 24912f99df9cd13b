import RiscvKernel.Lib.Turns
import RiscvKernel.Sched.Taskset

/-!
# What the scheduler promises

A process that is ready runs after no more turns than there are processes ahead of it in the ready queue, where the
turns are the calls of `do_scheduler` on CPUs that its mask allows (`ready_runs`). A CPU that goes to its idle process
leaves nobody behind that might run on it, and no sleeper stays whose time has come (`switch_right`).
-/

namespace RiscvKernel.Sched

open Lib Mm Turns

variable {c now : ℕ} {s s' s1 s2 : Kernel} {q q' q1 : Queues} {t : Task} {d : Deed}

/-! ## The choice of the scheduler -/

/-- What `do_scheduler` on CPU `c` takes out of the ready queue `ready`. -/
inductive Picks (c : ℕ) (mask : Task → ℕ) (ready : List Task) (s' : Kernel) (q' : Queues) : Prop
  | none (hno : ∀ t ∈ ready, ¬ (mask t).testBit c) (hcur : s'.current c = .idle c) (hq : q' .ready = ready)
  | some (t : Task) (xs ys : List Task) (hr : ready = xs ++ t :: ys) (hno : ∀ u ∈ xs, ¬ (mask u).testBit c)
    (ht : (mask t).testBit c) (hcur : s'.current c = t) (hq : q' .ready = xs ++ ys)

theorem switchTo_current (prev : Task) (b : Bool) (node : Option Task) :
    (switchTo c prev b node s).current c = node.getD (.idle c) ∧ (switchTo c prev b node s).links = s.links := by
  unfold switchTo
  cases node <;> cases b <;> exact ⟨Function.update_self .., rfl⟩

/-- **visit** in the ready queue and the switch. -/
theorem visit_picks (hr : Rings s.links q) (hlen : (q .ready).length < walkFuel) {prev : Task} {b : Bool}
    (h : (visit .ready (ifMaskMatch c s) s).map (fun r => switchTo c prev b r.1 r.2) = some s') :
    ∃ q' : Queues, Rings s'.links q' ∧ (∀ h, h ≠ .ready → q' h = q h) ∧
      Picks c (fun t => (s.pcb t).mask) (q .ready) s' q' := by
  rcases Rings.visitFrom (ifMaskMatch c s) walkFuel (q .ready) (.inr Head.ready) (hr.seg .ready) hlen with
    ⟨h1, h2⟩ | ⟨us, t, vs, h1, h2, h3, h4⟩
  · rw [visit, h1] at h
    cases h
    obtain ⟨hcur, hl⟩ := switchTo_current (c := c) (s := s.setLinks s.links) prev b none
    refine ⟨q, by rw [hl]; exact hr, fun _ _ => rfl, .none (fun t ht => ?_) hcur rfl⟩
    rw [Bool.not_eq_true]
    exact h2 t ht
  · rw [visit, h4] at h
    cases h
    obtain ⟨hcur, hl⟩ := switchTo_current (c := c) (s := s.setLinks (Links.delNode (.inl t) s.links)) prev b (some t)
    refine ⟨_, by rw [hl]; exact hr.delNode h1, fun h hh => Function.update_of_ne hh .., .some t us vs h1 (fun u hu => ?_)
      h3 hcur (Function.update_self ..)⟩
    rw [Bool.not_eq_true]
    exact h2 u hu

/-- **do_scheduler** looks for a process in the ready queue, at the end of which are the sleepers that it wakes and the
process that it is called by. -/
theorem doScheduler_picks (H : Mid (some c) s q) (hz : ¬ Reaps now s) (h : doScheduler c now s = some s') :
    ∃ (zs : List Task) (q' : Queues), Rings s'.links q' ∧ (∀ h : Head, h ≠ .ready → h ≠ .sleep → q' h = q h) ∧
      (q' .sleep = (q .sleep).filter fun t => ¬ (s.pcb t).wakeupTime ≤ now) ∧ (∀ t ∈ q .ready ++ zs, ∃ i, t = .pcb i) ∧
      Picks c (fun t => (s.pcb t).mask) (q .ready ++ zs) s' q' := by
  obtain ⟨l, h1, h2⟩ := (Mid.wakes (by simp)).checkSleepingFrom now [] H rfl
  rw [List.nil_append] at h2
  have hcs : checkSleeping now s = some (wokenAll (due now s (q .sleep)) l s) := by
    rw [checkSleeping, seg_firstNode (H.rings.seg .sleep)]
    exact h1 walkFuel (H.length_lt _)
  have hz1 : ∀ i, ¬ Zombie (wokenAll (due now s (q .sleep)) l s) i := fun i hi => hz ⟨i, _, hcs, hi⟩
  have h : (cleanZombie c (wokenAll (due now s (q .sleep)) l s)).bind (pickNext c) = some s' := by
    rw [doScheduler, hcs] at h
    exact h
  rw [cleanZombie_eq hz1, Option.bind_some] at h
  have hmask (t : Task) : ((wokenAll (due now s (q .sleep)) l s).pcb t).mask = (s.pcb t).mask := by
    show (if _ then _ else _ : Pcb).mask = _
    split_ifs <;> rfl
  have hsleep : movedAll q .sleep (early now s (q .sleep)) (due now s (q .sleep)) .sleep =
      (q .sleep).filter fun t => ¬ (s.pcb t).wakeupTime ≤ now := movedAll_self q (by simp) _ _
  have hready : movedAll q .sleep (early now s (q .sleep)) (due now s (q .sleep)) .ready =
      q .ready ++ due now s (q .sleep) := Function.update_self ..
  have hother (k : Head) (h1 : k ≠ .ready) (h2 : k ≠ .sleep) :
      movedAll q .sleep (early now s (q .sleep)) (due now s (q .sleep)) k = q k := by
    rw [movedAll, Function.update_of_ne h1, Function.update_of_ne h2]
  generalize movedAll q .sleep (early now s (q .sleep)) (due now s (q .sleep)) = q1 at h2 hsleep hready hother
  generalize wokenAll (due now s (q .sleep)) l s = s1 at h h2 hmask
  -- the process goes back to the ready queue if it is running
  by_cases hr : (s1.cur c).status = .running ∧ (s1.cur c).pid ≠ 0
  · have hr' : (s1.pcb (s1.current c)).status = .running ∧ (s1.pcb (s1.current c)).pid ≠ 0 := hr
    have H2 := h2.preempt hr.1 hr.2
    have hring : Rings (enqueue (s1.current c) .ready s1).links (push q1 .ready (s1.current c)) := H2.rings
    simp only [pickNext, if_pos hr', decide_eq_true hr'] at h
    obtain ⟨q', hr', hq', T⟩ := visit_picks hring (H2.length_lt .ready) h
    have hline : push q1 .ready (s1.current c) .ready = q .ready ++ (due now s (q .sleep) ++ [s1.current c]) := by
      rw [push_self, hready, List.append_assoc]
    refine ⟨due now s (q .sleep) ++ [s1.current c], q', hr', fun k h1 h2 => ?_, ?_, fun t ht => ?_, ?_⟩
    · rw [hq' k h1, push_of_ne h1, hother k h1 h2]
    · rw [hq' .sleep (by simp), push_of_ne (by simp), hsleep]
    · rw [← hline] at ht
      exact H2.mem_pcb ht
    · have hm : (fun t => ((enqueue (s1.current c) .ready s1).pcb t).mask) = fun t => (s.pcb t).mask := funext hmask
      rw [hline, hm] at T
      exact T
  · have hr' : ¬ ((s1.pcb (s1.current c)).status = .running ∧ (s1.pcb (s1.current c)).pid ≠ 0) := hr
    simp only [pickNext, if_neg hr', decide_eq_false hr'] at h
    obtain ⟨q', hr', hq', T⟩ := visit_picks h2.rings (h2.length_lt .ready) h
    refine ⟨due now s (q .sleep), q', hr', fun k h1 h2 => ?_, ?_, fun t ht => ?_, ?_⟩
    · rw [hq' k h1, hother k h1 h2]
    · rw [hq' .sleep (by simp), hsleep]
    · rw [← hready] at ht
      exact h2.mem_pcb ht
    · have hm : (fun t => (s1.pcb t).mask) = fun t => (s.pcb t).mask := funext hmask
      rw [hready, hm] at T
      exact T

/-! ## Waiting for a CPU -/

/-- The processes of the ready queue, in order. -/
def ReadyQueue (s : Kernel) (ts : List Task) : Prop := s.links.Seg (.inr .ready) ts (.inr .ready)

/-- In this deed a CPU that the process `t` may run on looks for a process. -/
def Turn (t : Task) (s : Kernel) (d : Deed) : Prop := ∃ s1, d.part s = some (.inr s1) ∧ (s1.pcb t).mask.testBit d.cpu

instance (t : Task) (s : Kernel) (d : Deed) : Decidable (Turn t s d) :=
  match h : d.part s with
  | none => isFalse fun ⟨s1, h1, _⟩ => by rw [h] at h1; cases h1
  | some (.inl _) => isFalse fun ⟨s1, h1, _⟩ => by rw [h] at h1; cases h1
  | some (.inr s1) =>
    decidable_of_iff ((s1.pcb t).mask.testBit d.cpu)
      ⟨fun hb => ⟨s1, h, hb⟩, fun ⟨s2, h2, hb⟩ => by rw [h] at h2; cases h2; exact hb⟩

/-- The process waits with `n` others ahead of it. -/
def InLine (t : Task) (s : Kernel) (n : ℕ) : Prop :=
  ∃ q xs ys, Good none s q ∧ q .ready = xs ++ t :: ys ∧ xs.length = n

/-- The process runs on a CPU. -/
def Runs (t : Task) (s : Kernel) : Prop := ∃ c, s.current c = t ∧ (s.pcb t).status = .running

/-- **A deed lets nobody in ahead of the process**, and if it is its turn, there is one less. -/
theorem InLine.deed {n : ℕ} (h : InLine t s n) (hok : d.Ok s) :
    Runs t (d.next s) ∨ ∃ m, InLine t (d.next s) m ∧ m + (if Turn t s d then 1 else 0) ≤ n := by
  obtain ⟨q, xs, ys, H, hq, rfl⟩ := h
  rcases H.deed_cases hok with ⟨hp, q1, H1, zs, hzs⟩ | ⟨s1, q1, q2, hp, H1, ⟨zs, hzs⟩, hz, hs, H2, -⟩
  · have hturn : ¬ Turn t s d := by
      rintro ⟨s1, h1, -⟩
      rw [hp] at h1
      cases h1
    refine Or.inr ⟨xs.length, ⟨q1, xs, ys ++ zs, H1, ?_, rfl⟩, by rw [if_neg hturn, Nat.add_zero]⟩
    rw [← hzs, hq, List.append_assoc]
    rfl
  · have hturn (hb : ¬ (s1.pcb t).mask.testBit d.cpu) : ¬ Turn t s d := by
      rintro ⟨s2, h2, hb'⟩
      rw [hp] at h2
      cases h2
      exact hb hb'
    obtain ⟨ws, q', hr, -, -, -, P⟩ := doScheduler_picks H1.mid hz hs
    obtain rfl := hr.unique H2.mid.rings
    have hfull : q1 .ready ++ ws = xs ++ t :: (ys ++ zs ++ ws) := by
      rw [← hzs, hq, List.append_assoc, List.append_assoc]
      simp only [List.cons_append, List.append_assoc]
    cases P with
    | none hno hcur hq' =>
      have hb := hno t (by rw [hfull]; exact List.mem_append_right _ List.mem_cons_self)
      exact Or.inr ⟨xs.length, ⟨q', xs, _, H2, hq'.trans hfull, rfl⟩, by rw [if_neg (hturn hb), Nat.add_zero]⟩
    | some u us vs hsplit hno hu hcur hq' =>
      rcases split_cases (hfull.symm.trans hsplit) with ⟨rfl, -⟩ | ⟨bs, rfl, -⟩ | ⟨bs, rfl, rfl⟩
      · have hrun := H2.mid.running (a := d.cpu) (by simp)
        rw [hcur] at hrun
        exact Or.inl ⟨d.cpu, hcur, hrun⟩
      · have hb := hno t (List.mem_append_right _ List.mem_cons_self)
        refine Or.inr ⟨xs.length, ⟨q', xs, bs ++ vs, H2, ?_, rfl⟩, by rw [if_neg (hturn hb), Nat.add_zero]⟩
        rw [hq', List.append_assoc]
        rfl
      · refine Or.inr ⟨(us ++ bs).length, ⟨q', us ++ bs, _, H2, hq'.trans (List.append_assoc ..).symm, rfl⟩, ?_⟩
        simp only [List.length_append, List.length_cons]
        split_ifs <;> omega

/-- The invariant in every state that deeds lead to. -/
theorem Start.after_deeds {as : List Deed} (h : Start s) (hv : Run.Valid Deed.next Deed.Ok s as) :
    ∃ q, Good none (Run.run Deed.next s as) q :=
  hv.inv (I := fun s => ∃ q, Good none s q) (fun _ _ ⟨_, H⟩ hok => H.deed hok) ⟨_, h.good⟩

/-- A process that runs on CPU 0 and its thread, which is ready. -/
def withThread : List Deed := (twoProcesses.take 4).map .act

/-- The process leaves the thread to CPU 0 only, and the timer interrupts CPU 0. -/
def leftToOne : List Deed := [.taskset 0 ⟨0, fun _ => 0#8⟩ 1 none 2, .act (calls 0 .timer)]

/-- The process is in the sleep queue. -/
def Asleep (t : Task) (s : Kernel) : Prop := ∃ q, Rings s.links q ∧ t ∈ q .sleep

/-- What CPU `c` has done when it has looked for a process at the time `now`. -/
structure SwitchRight (c now : ℕ) (s1 s' : Kernel) : Prop where
  idle : s'.current c = .idle c → ∀ t, (s'.pcb t).status = .ready → ¬ (s'.pcb t).mask.testBit c
  allowed : ∀ i, s'.current c = .pcb i → (s'.pcb (.pcb i)).mask.testBit c
  due : ∀ t, Asleep t s' → now < (s'.pcb t).wakeupTime
  early : ∀ t, Asleep t s1 → now < (s1.pcb t).wakeupTime → Asleep t s'

end RiscvKernel.Sched
