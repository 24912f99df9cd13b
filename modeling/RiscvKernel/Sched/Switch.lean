import RiscvKernel.Sched.Queues

/-!
# Switching to another process

What `do_scheduler` does when no process has been killed in a queue: sleepers whose time has come move
to the ready queue, the process that calls it goes there if it is still running, and the first process of
the ready queue that may run on the CPU becomes the current one. Everything else stays as it is.
-/

namespace RiscvKernel.Sched

open Lib Mm

variable {x : Option ℕ} {c now : ℕ} {s : Kernel} {q : Head → List Task} {t : Task}

/-- `clean_zombie` finds a process to end. -/
def Zombie (s : Kernel) (i : Fin taskMaxnum) : Prop :=
  (s.pcb (.pcb i)).status = .blocked ∧ (s.pcb (.pcb i)).killed = true

instance (s : Kernel) (i : Fin taskMaxnum) : Decidable (Zombie s i) :=
  inferInstanceAs (Decidable (_ ∧ _))

theorem cleanZombie_eq (hz : ∀ i, ¬ Zombie s i) : cleanZombie c s = some s := by
  unfold cleanZombie
  generalize slots = is
  induction is with
  | nil => rfl
  | cons i is ih =>
    have hi : ¬ ((s.pcb (.pcb i)).status = .blocked ∧ (s.pcb (.pcb i)).killed = true) := hz i
    rw [List.foldlM_cons, if_neg hi]
    exact ih

/-- The process of CPU `c` goes back to the ready queue. -/
theorem Mid.preempt (H : Mid (some c) s q) (hr : (s.cur c).status = .running)
    (hp : (s.cur c).pid ≠ 0) :
    Mid (some c) ((enqueue (s.current c) .ready s).setStatus (s.current c) .ready)
      (push q .ready (s.current c)) := by
  have hr : (s.pcb (s.current c)).status = .running := hr
  have hp : (s.pcb (s.current c)).pid ≠ 0 := hp
  generalize hcur : s.current c = t at hr hp ⊢
  refine ⟨H.rings.enqueue (H.notMem (by simp [hr]) (by simp [hr])), ?_, ?_, ?_, ?_, ?_, ?_, H.inj, H.own,
    ?_⟩
  · intro u
    show _ ↔ ((s.setStatus t .ready).pcb u).status = .ready
    rw [mem_push, setStatus_status, H.ready]
    by_cases e : u = t
    · simp [e]
    · simp [e]
  · intro u
    show _ ↔ ((s.setStatus t .ready).pcb u).status = .blocked
    rw [setStatus_status]
    have hmem : ∀ h, h ≠ .ready → (u ∈ push q .ready t h ↔ u ∈ q h) := by
      intro h hh; rw [push_of_ne hh]
    simp only [and_congr_right_iff.2 (hmem _), H.blocked]
    by_cases e : u = t
    · simp [e, hr]
    · simp [e]
  · intro k
    show ((s.setStatus t .ready).pcb (.idle k)).status = .running ∧
      ((s.setStatus t .ready).pcb (.idle k)).pid = 0
    have hne : (.idle k : Task) ≠ t := by
      rintro rfl; exact hp (H.idle k).2
    rw [setStatus_status, setStatus_pid, if_neg hne]
    exact H.idle k
  · intro i
    show ((s.setStatus t .ready).pcb (.pcb i)).status ≠ .exited →
      ((s.setStatus t .ready).pcb (.pcb i)).pid ≠ 0
    rw [setStatus_status, setStatus_pid]
    intro h1
    by_cases e : .pcb i = t
    · rwa [e]
    · rw [if_neg e] at h1
      exact H.pid i h1
  · intro u
    show ((s.setStatus t .ready).pcb u).status = .exited → _
    rw [setStatus_status]
    intro h1 h2
    by_cases e : u = t
    · rw [if_pos e] at h1; cases h1
    · rw [if_neg e] at h1
      rw [push_of_ne (by simp)]
      exact H.exited h1 h2
  · intro i hv
    rw [push_of_ne (by simp)]
    exact H.pipe hv
  · intro a ha
    show ((s.setStatus t .ready).pcb (s.current a)).status = .running
    rw [setStatus_status, if_neg]
    · exact H.running ha
    · intro e
      exact ha (by rw [H.inj (e.trans hcur.symm)])

/-- The state after the switch of CPU `c` to `n`. -/
def switched (c : ℕ) (n : Task) (l : Links Task Head) (s : Kernel) : Kernel :=
  ((s.setLinks l).setCurrent c n).setPcb n
    { s.pcb n with status := .running, cpuid := if n = Task.idle c then (s.pcb n).cpuid else c }

theorem switched_status (n : Task) (l : Links Task Head) (u : Task) :
    ((switched c n l s).pcb u).status = if u = n then .running else (s.pcb u).status := by
  by_cases e : u = n
  · subst e; simp [switched, Kernel.setPcb]
  · simp [switched, Kernel.setPcb, e]

theorem switched_pid (n : Task) (l : Links Task Head) (u : Task) :
    ((switched c n l s).pcb u).pid = (s.pcb u).pid := by
  by_cases e : u = n
  · subst e; simp [switched, Kernel.setPcb]
  · simp [switched, Kernel.setPcb, e]

/-- A process that has ended has woken those that waited for it. -/
theorem Mid.exited_all (H : Mid (some c) s q)
    (hw : (s.cur c).status = .exited → q (.wait (s.current c)) = []) {u : Task}
    (hu : (s.pcb u).status = .exited) : q (.wait u) = [] := by
  by_cases e : u = s.current c
  · rw [e] at hu ⊢
    exact hw hu
  · exact H.exited hu fun a ha => by rwa [← Option.some.inj ha]

/-- Nothing to run: the CPU goes to its idle process. -/
theorem Mid.switch_idle (H : Mid (some c) s q)
    (hw : (s.cur c).status = .exited → q (.wait (s.current c)) = []) :
    Mid none (switched c (.idle c) s.links s) q := by
  have hst : ∀ u, ((switched c (.idle c) s.links s).pcb u).status = (s.pcb u).status := by
    intro u
    rw [switched_status]
    by_cases e : u = .idle c
    · rw [if_pos e, e, (H.idle c).1]
    · rw [if_neg e]
  have hpid : ∀ u, ((switched c (.idle c) s.links s).pcb u).pid = (s.pcb u).pid := switched_pid _ _
  have hcur : ∀ a, a ≠ c → (switched c (.idle c) s.links s).current a = s.current a :=
    fun a ha => Function.update_of_ne ha ..
  have hcurc : (switched c (.idle c) s.links s).current c = .idle c := Function.update_self ..
  refine ⟨H.rings, ?_, ?_, ?_, ?_, ?_, H.pipe, ?_, ?_, ?_⟩
  · intro u; rw [hst]; exact H.ready
  · intro u; rw [hst]; exact H.blocked
  · intro k; rw [hst, hpid]; exact H.idle k
  · intro i; rw [hst, hpid]; exact H.pid i
  · intro u hu _
    rw [hst] at hu
    exact H.exited_all hw hu
  · intro a b hab
    by_cases ea : a = c <;> by_cases eb : b = c
    · rw [ea, eb]
    · rw [ea, hcurc, hcur b eb] at hab
      exact absurd (H.own hab.symm) eb
    · rw [eb, hcurc, hcur a ea] at hab
      exact absurd (H.own hab) ea
    · rw [hcur a ea, hcur b eb] at hab
      exact H.inj hab
  · intro a k hak
    by_cases ea : a = c
    · rw [ea, hcurc] at hak
      cases hak
      exact ea
    · rw [hcur a ea] at hak
      exact H.own hak
  · intro a _
    rw [hst]
    by_cases ea : a = c
    · rw [ea, hcurc]; exact (H.idle c).1
    · rw [hcur a ea]; exact H.running (by simpa using ea)

/-- The CPU goes to a process of the ready queue. -/
theorem Mid.switch_ready {l : Links Task Head} {xs ys : List Task} (H : Mid (some c) s q)
    (hw : (s.cur c).status = .exited → q (.wait (s.current c)) = []) (hq : q .ready = xs ++ t :: ys) (hl : Rings l (Function.update q .ready (xs ++ ys))) :
    Mid none (switched c t l s) (Function.update q .ready (xs ++ ys)) := by
  have htq : t ∈ q .ready := by rw [hq]; simp
  have htr : (s.pcb t).status = .ready := H.ready.1 htq
  obtain ⟨i, rfl⟩ := H.mem_pcb htq
  have hnd : (.pcb i : Task) ∉ xs ++ ys := by
    have := H.rings.nodup .ready
    rw [hq] at this
    exact (List.nodup_middle.1 this).notMem
  have hcur : ∀ a, a ≠ c → (switched c (.pcb i) l s).current a = s.current a :=
    fun a ha => Function.update_of_ne ha ..
  have hcurc : (switched c (.pcb i) l s).current c = .pcb i := Function.update_self ..
  -- a ready process is not the current one of another CPU
  have hnot : ∀ a, a ≠ c → s.current a ≠ .pcb i := by
    intro a ha e
    have := H.running (a := a) (by simpa using ha)
    rw [e, htr] at this
    cases this
  refine ⟨hl, ?_, ?_, ?_, ?_, ?_, ?_, ?_, ?_, ?_⟩
  · intro u
    rw [switched_status, Function.update_self]
    by_cases e : u = .pcb i
    · rw [if_pos e, e]; simp [hnd]
    · rw [if_neg e, ← H.ready, hq]; simp [e]
  · intro u
    rw [switched_status]
    have hmem : ∀ h, h ≠ .ready → (u ∈ Function.update q .ready (xs ++ ys) h ↔ u ∈ q h) := by
      intro h hh; rw [Function.update_of_ne hh]
    simp only [and_congr_right_iff.2 (hmem _), H.blocked]
    by_cases e : u = .pcb i
    · simp [e, htr]
    · simp [e]
  · intro k
    rw [switched_status, switched_pid, if_neg (by simp)]
    exact H.idle k
  · intro j
    rw [switched_status, switched_pid]
    intro h1
    refine H.pid j ?_
    by_cases e : (.pcb j : Task) = .pcb i
    · rw [e, htr]; simp
    · rwa [if_neg e] at h1
  · intro u
    rw [switched_status]
    intro h1 _
    by_cases e : u = .pcb i
    · rw [if_pos e] at h1; cases h1
    · rw [if_neg e] at h1
      rw [Function.update_of_ne (by simp)]
      exact H.exited_all hw h1
  · intro k hv
    rw [Function.update_of_ne (by simp)]
    exact H.pipe hv
  · intro a b hab
    by_cases ea : a = c <;> by_cases eb : b = c
    · rw [ea, eb]
    · rw [ea, hcurc, hcur b eb] at hab
      exact absurd hab.symm (hnot b eb)
    · rw [eb, hcurc, hcur a ea] at hab
      exact absurd hab (hnot a ea)
    · rw [hcur a ea, hcur b eb] at hab
      exact H.inj hab
  · intro a k hak
    by_cases ea : a = c
    · rw [ea, hcurc] at hak; cases hak
    · rw [hcur a ea] at hak
      exact H.own hak
  · intro a _
    rw [switched_status]
    by_cases ea : a = c
    · rw [ea, hcurc, if_pos rfl]
    · rw [hcur a ea, if_neg (hnot a ea)]
      exact H.running (by simpa using ea)

/-! ## do_scheduler -/

/-- The state in which `do_scheduler` looks for the next process: the process of CPU `c` is ready if it
can go on. -/
def preempted (c : ℕ) (s : Kernel) : Kernel :=
  if (s.cur c).status = .running ∧ (s.cur c).pid ≠ 0 then
    (enqueue (s.current c) .ready s).setStatus (s.current c) .ready
  else s

theorem Mid.preempted (H : Mid (some c) s q)
    (hw : (s.cur c).status = .exited → q (.wait (s.current c)) = []) :
    ∃ q', Mid (some c) (preempted c s) q' ∧ (∀ h, h ≠ .ready → q' h = q h) ∧
      (((preempted c s).cur c).status = .exited → q' (.wait ((preempted c s).current c)) = []) := by
  unfold Sched.preempted
  split_ifs with hr
  · refine ⟨_, H.preempt hr.1 hr.2, fun h hh => push_of_ne hh, fun he => ?_⟩
    have he : ((s.setStatus (s.current c) .ready).pcb (s.current c)).status = .exited := he
    rw [setStatus_status, if_pos rfl] at he
    cases he
  · exact ⟨q, H, fun _ _ => rfl, hw⟩

/-- The order in which `do_scheduler` sets the statuses does not matter. -/
theorem switchTo_eq {l : Links Task Head} (t prev : Task) (ht : ∀ k, t ≠ .idle k) :
    switchTo c prev true (some t) (s.setLinks l) = switched c t l (s.setStatus prev .ready) ∧
      switchTo c prev false (some t) (s.setLinks l) = switched c t l s := by
  constructor
  · simp only [switchTo, switched, if_true, if_neg (ht c)]
    by_cases e : prev = t
    · subst e
      simp [Kernel.setStatus, Kernel.setPcb, Kernel.setLinks, Kernel.setCurrent]
    · simp [Kernel.setStatus, Kernel.setPcb, Kernel.setLinks, Kernel.setCurrent, e, Ne.symm e]
      rw [Function.update_comm (Ne.symm e), Function.update_idem]
  · simp [switchTo, switched, if_neg (ht c), Kernel.setStatus, Kernel.setPcb, Kernel.setLinks,
      Kernel.setCurrent]

theorem switchTo_idle {l : Links Task Head} (prev : Task) :
    switchTo c prev true none (s.setLinks l) = switched c (.idle c) l (s.setStatus prev .ready) ∧
      switchTo c prev false none (s.setLinks l) = switched c (.idle c) l s := by
  constructor <;>
    simp [switchTo, switched, Kernel.setStatus, Kernel.setPcb, Kernel.setLinks, Kernel.setCurrent]

/-- The choice of the next process. -/
theorem Mid.pickNext (H : Mid (some c) s q)
    (hw : (s.cur c).status = .exited → q (.wait (s.current c)) = []) : ∃ n l q',
    Sched.pickNext c s = some (switched c n l (Sched.preempted c s)) ∧
      Mid none (switched c n l (Sched.preempted c s)) q' ∧ (∀ h, h ≠ .ready → q' h = q h) ∧
      (n = .idle c ∨ ((Sched.preempted c s).pcb n).status = .ready) := by
  obtain ⟨q1, H1, hq1, hw1⟩ := H.preempted hw
  have hlen := H1.length_lt .ready
  by_cases hr : (s.cur c).status = .running ∧ (s.cur c).pid ≠ 0
  · have he : Sched.preempted c s = (enqueue (s.current c) .ready s).setStatus (s.current c) .ready :=
      if_pos hr
    have hring : Rings (enqueue (s.current c) .ready s).links q1 := by rw [he] at H1; exact H1.rings
    have hdef : Sched.pickNext c s = (visit .ready (ifMaskMatch c (enqueue (s.current c) .ready s))
        (enqueue (s.current c) .ready s)).map fun r => switchTo c (s.current c) true r.1 r.2 := by
      have hr' : (s.pcb (s.current c)).status = .running ∧ (s.pcb (s.current c)).pid ≠ 0 := hr
      simp only [Sched.pickNext, if_pos hr', decide_eq_true hr']
    rcases visit_rings hring hlen with ⟨h1, -⟩ | ⟨t, xs, ys, l, h1, h2, h3⟩
    · refine ⟨.idle c, (Sched.preempted c s).links, q1, ?_, H1.switch_idle hw1, hq1, Or.inl rfl⟩
      rw [hdef, h1, he]
      exact congrArg some (switchTo_idle (s.current c)).1
    · have htq : t ∈ q1 .ready := by rw [h1]; simp
      obtain ⟨i, hi⟩ := H1.mem_pcb htq
      refine ⟨t, l, _, ?_, H1.switch_ready hw1 h1 h3, fun h hh => ?_, Or.inr (H1.ready.1 htq)⟩
      · rw [hdef, h2, he]
        exact congrArg some (switchTo_eq t (s.current c) (by simp [hi])).1
      · rw [Function.update_of_ne hh, hq1 h hh]
  · have he : Sched.preempted c s = s := if_neg hr
    have hdef : Sched.pickNext c s = (visit .ready (ifMaskMatch c s) s).map fun r =>
        switchTo c (s.current c) false r.1 r.2 := by
      have hr' : ¬ ((s.pcb (s.current c)).status = .running ∧ (s.pcb (s.current c)).pid ≠ 0) := hr
      simp only [Sched.pickNext, if_neg hr', decide_eq_false hr']
    rw [he] at H1 hw1 ⊢
    rcases visit_rings H1.rings hlen with ⟨h1, -⟩ | ⟨t, xs, ys, l, h1, h2, h3⟩
    · refine ⟨.idle c, s.links, q1, ?_, H1.switch_idle hw1, hq1, Or.inl rfl⟩
      rw [hdef, h1]
      exact congrArg some (switchTo_idle (s.current c)).2
    · have htq : t ∈ q1 .ready := by rw [h1]; simp
      obtain ⟨i, hi⟩ := H1.mem_pcb htq
      refine ⟨t, l, _, ?_, H1.switch_ready hw1 h1 h3, fun h hh => ?_, Or.inr (H1.ready.1 htq)⟩
      · rw [hdef, h2]
        exact congrArg some (switchTo_eq t (s.current c) (by simp [hi])).2
      · rw [Function.update_of_ne hh, hq1 h hh]

/-- The scheduler would end a process in the place of the current one. -/
def Reaps (now : ℕ) (s : Kernel) : Prop := ∃ i, ∃ s1 ∈ checkSleeping now s, Zombie s1 i

instance (now : ℕ) (s : Kernel) : Decidable (Reaps now s) :=
  inferInstanceAs (Decidable (∃ _, _))

/-- What `do_scheduler` on CPU `c` leaves as it was. -/
structure Switched (c : ℕ) (s s' : Kernel) (q q' : Head → List Task) : Prop where
  pcb : ∀ t, s'.pcb t = { s.pcb t with status := (s'.pcb t).status, cpuid := (s'.pcb t).cpuid }
  exited : ∀ t, (s'.pcb t).status = .exited ↔ (s.pcb t).status = .exited
  queue : ∀ h, h ≠ .ready → h ≠ .sleep → q' h = q h
  current : ∀ a, a ≠ c → s'.current a = s.current a
  processId : s'.processId = s.processId
  mlocks : s'.mlocks = s.mlocks
  conditions : s'.conditions = s.conditions
  barriers : s'.barriers = s.barriers
  mailboxes : s'.mailboxes = s.mailboxes
  pipes : s'.pipes = s.pipes
  memory : s'.memory = s.memory
  cont : s'.cont = s.cont
  kernelLock : s'.kernelLock = s.kernelLock
  log : ∃ ts, s'.log = s.log ++ ts.map .wake ∧ ts ⊆ q .sleep

theorem preempted_pcb (u : Task) : ∃ st, (preempted c s).pcb u = { s.pcb u with status := st } ∧
    (st = .exited ↔ (s.pcb u).status = .exited) := by
  unfold preempted
  split_ifs with hr
  · have hr : (s.pcb (s.current c)).status = .running := hr.1
    by_cases e : u = s.current c
    · subst e
      exact ⟨.ready, by simp [Kernel.setStatus, Kernel.setPcb, enqueue], by simp [hr]⟩
    · exact ⟨_, by simp [Kernel.setStatus, Kernel.setPcb, enqueue, e], Iff.rfl⟩
  · exact ⟨_, rfl, Iff.rfl⟩

/-- **do_scheduler** picks a process and changes nothing but statuses and the two queues of the
scheduler. -/
theorem Mid.doScheduler (H : Mid (some c) s q)
    (hw : (s.cur c).status = .exited → q (.wait (s.current c)) = []) (hz : ¬ Reaps now s) :
    ∃ s' q', Sched.doScheduler c now s = some s' ∧ Mid none s' q' ∧ Switched c s s' q q' := by
  obtain ⟨l, ts, zs, h1, H1, hts, -⟩ := H.checkSleeping now
  have hz1 : ∀ i, ¬ Zombie (wokenAll ts l s) i := fun i hi => hz ⟨i, _, h1, hi⟩
  have hw1 : ((wokenAll ts l s).cur c).status = .exited →
      movedAll q .sleep zs ts (.wait (s.current c)) = [] := by
    intro he
    have he : ((wokenAll ts l s).pcb (s.current c)).status = .exited := he
    rw [movedAll, Function.update_of_ne (by simp), Function.update_of_ne (by simp)]
    rw [wokenAll_status] at he
    split_ifs at he
    exact hw he
  obtain ⟨n, l', q', h2, H2, hq', hn⟩ := H1.pickNext hw1
  refine ⟨_, q', ?_, H2, ?_⟩
  · rw [Sched.doScheduler, h1]
    show (cleanZombie c (wokenAll ts l s)).bind _ = _
    rw [cleanZombie_eq hz1]
    exact h2
  -- sleepers are blocked, so they are not exited
  have hw : ∀ u, ∃ st, (wokenAll ts l s).pcb u = { s.pcb u with status := st } ∧
      (st = .exited ↔ (s.pcb u).status = .exited) := by
    intro u
    by_cases e : u ∈ ts
    · refine ⟨.ready, by simp [wokenAll, e], ?_⟩
      rw [H.blocked.1 ⟨.sleep, by simp, hts e⟩]
      simp
    · exact ⟨_, by simp [wokenAll, e], Iff.rfl⟩
  generalize hs1 : wokenAll ts l s = s1 at *
  have hpre : ∀ u, ∃ st, (Sched.preempted c s1).pcb u = { s.pcb u with status := st } ∧
      (st = .exited ↔ (s.pcb u).status = .exited) := by
    intro u
    obtain ⟨st, h3, h4⟩ := preempted_pcb (c := c) (s := s1) u
    obtain ⟨st', h5, h6⟩ := hw u
    exact ⟨st, by rw [h3, h5], by rw [h4, h5]; exact h6⟩
  have keep : ∀ {α : Type} (f : Kernel → α), (∀ s l, f (s.setLinks l) = f s) →
      (∀ s t p, f (s.setPcb t p) = f s) → (∀ s a t, f (s.setCurrent a t) = f s) →
      f (switched c n l' (Sched.preempted c s1)) = f s1 := by
    intro α f hl hp hc
    rw [switched, hp, hc, hl]
    unfold Sched.preempted
    split_ifs
    · rw [Kernel.setStatus, hp, enqueue, hl]
    · rfl
  have skeep : ∀ {α : Type} (f : Kernel → α), (∀ s l, f (s.setLinks l) = f s) →
      (∀ s t p, f (s.setPcb t p) = f s) → (∀ s a t, f (s.setCurrent a t) = f s) →
      f s1 = f s → f (switched c n l' (Sched.preempted c s1)) = f s :=
    fun f hl hp hc h => (keep f hl hp hc).trans h
  refine
    { pcb := ?_, exited := ?_, queue := ?_, current := ?_
      processId := skeep (·.processId) (fun _ _ => rfl) (fun _ _ _ => rfl) (fun _ _ _ => rfl) (hs1 ▸ rfl)
      mlocks := skeep (·.mlocks) (fun _ _ => rfl) (fun _ _ _ => rfl) (fun _ _ _ => rfl) (hs1 ▸ rfl)
      conditions := skeep (·.conditions) (fun _ _ => rfl) (fun _ _ _ => rfl) (fun _ _ _ => rfl) (hs1 ▸ rfl)
      barriers := skeep (·.barriers) (fun _ _ => rfl) (fun _ _ _ => rfl) (fun _ _ _ => rfl) (hs1 ▸ rfl)
      mailboxes := skeep (·.mailboxes) (fun _ _ => rfl) (fun _ _ _ => rfl) (fun _ _ _ => rfl) (hs1 ▸ rfl)
      pipes := skeep (·.pipes) (fun _ _ => rfl) (fun _ _ _ => rfl) (fun _ _ _ => rfl) (hs1 ▸ rfl)
      memory := skeep (·.memory) (fun _ _ => rfl) (fun _ _ _ => rfl) (fun _ _ _ => rfl) (hs1 ▸ rfl)
      cont := skeep (·.cont) (fun _ _ => rfl) (fun _ _ _ => rfl) (fun _ _ _ => rfl) (hs1 ▸ rfl)
      kernelLock := skeep (·.kernelLock) (fun _ _ => rfl) (fun _ _ _ => rfl) (fun _ _ _ => rfl) (hs1 ▸ rfl)
      log := ⟨ts, (keep (·.log) (fun _ _ => rfl) (fun _ _ _ => rfl) (fun _ _ _ => rfl)).trans
        (hs1 ▸ rfl), hts⟩ }
  · intro u
    obtain ⟨st, h3, -⟩ := hpre u
    by_cases e : u = n
    · subst e; simp [switched, Kernel.setPcb, h3]
    · simp [switched, Kernel.setPcb, e, h3]
  · intro u
    obtain ⟨st, h3, h4⟩ := hpre u
    rw [switched_status, h3]
    by_cases e : u = n
    · rw [if_pos e]
      refine ⟨by simp, fun he => ?_⟩
      rw [e] at h3 h4 he
      rcases hn with hn | hn
      · rw [hn, (H.idle c).1] at he; cases he
      · rw [h3] at hn
        have hn : st = .ready := hn
        rw [h4.2 he] at hn; cases hn
    · rw [if_neg e]; exact h4
  · intro h hr hs
    rw [hq' h hr, movedAll, Function.update_of_ne hr, Function.update_of_ne hs]
  · intro a ha
    show Function.update (Sched.preempted c s1).current c n a = _
    rw [Function.update_of_ne ha, ← hs1]
    unfold Sched.preempted
    split_ifs <;> rfl

end RiscvKernel.Sched
