import RiscvKernel.Sched.System

/-!
# Queues and statuses

`Mid x s q` says how the queues and the statuses of the processes agree: the pointers form the queues
`q`, a process is in the ready queue if and only if it is ready and in some other queue if and only
if it is blocked, and the current processes of the CPUs are distinct and running. In the middle of a
step the current process of the CPU `x` that takes the step may have any status.

For each of the operations on queues there is one lemma that says what it does to the state and to `q`.
-/

namespace RiscvKernel.Sched

open Lib Mm

/-! ## The invariant -/

/-- The queues `q` and the statuses agree, except that the current process of CPU `x` may have any
status. -/
structure Agree (links : Links Task Head) (pcb : Task → Pcb) (current : ℕ → Task) (valid : ℕ → Bool)
    (x : Option ℕ) (q : Head → List Task) : Prop where
  rings : Rings links q
  ready : ∀ {t}, t ∈ q .ready ↔ (pcb t).status = .ready
  blocked : ∀ {t}, (∃ h, h ≠ .ready ∧ t ∈ q h) ↔ (pcb t).status = .blocked
  idle : ∀ c, (pcb (.idle c)).status = .running ∧ (pcb (.idle c)).pid = 0
  pid : ∀ i, (pcb (.pcb i)).status ≠ .exited → (pcb (.pcb i)).pid ≠ 0
  exited : ∀ {t}, (pcb t).status = .exited → (∀ a, x = some a → t ≠ current a) → q (.wait t) = []
  pipe : ∀ {i}, valid i = false → q (.pipe i) = []
  inj : ∀ {a b}, current a = current b → a = b
  own : ∀ {a c}, current a = .idle c → a = c
  running : ∀ {a}, some a ≠ x → (pcb (current a)).status = .running

/-- `Agree` for a state. The other parts of the state do not matter. -/
abbrev Mid (x : Option ℕ) (s : Kernel) (q : Head → List Task) : Prop :=
  Agree s.links s.pcb s.current (fun i => (s.pipes i).valid) x q

namespace Mid

variable {x : Option ℕ} {c : ℕ} {s : Kernel} {q : Head → List Task} {t : Task} {h : Head}

theorem weaken (H : Mid none s q) : Mid x s q :=
  { H with
    exited := fun h _ => H.exited h (by simp)
    running := fun _ => H.running (by simp) }

/-- The invariant between steps. -/
theorem settle (H : Mid (some c) s q) (hc : (s.cur c).status = .running) : Mid none s q :=
  { H with
    exited := by
      intro t ht _
      refine H.exited ht fun a ha e => ?_
      obtain rfl := Option.some.inj ha
      have hc : (s.pcb (s.current c)).status = .running := hc
      rw [← e, ht] at hc
      cases hc
    running := by
      intro a _
      by_cases e : a = c
      · rw [e]; exact hc
      · exact H.running (by simpa using e) }

theorem status_of_mem (H : Mid x s q) (ht : t ∈ q h) :
    (s.pcb t).status = .ready ∨ (s.pcb t).status = .blocked := by
  by_cases e : h = .ready
  · exact Or.inl (H.ready.1 (e ▸ ht))
  · exact Or.inr (H.blocked.1 ⟨h, e, ht⟩)

/-- A running or exited process is in no queue. -/
theorem notMem (H : Mid x s q) (h1 : (s.pcb t).status ≠ .ready) (h2 : (s.pcb t).status ≠ .blocked)
    (h : Head) : t ∉ q h := by
  intro ht
  rcases H.status_of_mem ht with e | e
  · exact h1 e
  · exact h2 e

theorem mem_pcb (H : Mid x s q) (ht : t ∈ q h) : ∃ i, t = .pcb i := by
  cases t with
  | pcb i => exact ⟨i, rfl⟩
  | idle c =>
    rcases H.status_of_mem ht with e | e <;> rw [(H.idle c).1] at e <;> cases e

theorem length_lt (H : Mid x s q) (h : Head) : (q h).length < walkFuel := by
  have hsub : q h ⊆ slots.map .pcb := by
    intro t ht
    obtain ⟨i, rfl⟩ := H.mem_pcb ht
    simp [slots]
  have hle := ((H.rings.nodup h).subperm hsub).length_le
  simp only [slots, List.length_map, List.length_finRange] at hle
  unfold walkFuel
  unfold taskMaxnum at hle
  omega

end Mid

/-! ## Blocking -/

/-- The queues after `t` has been put at the end of `h`. -/
def push (q : Head → List Task) (h : Head) (t : Task) : Head → List Task :=
  Function.update q h (q h ++ [t])

/-- A process may be put in this queue. -/
structure Open (s : Kernel) (h : Head) : Prop where
  ne : h ≠ .ready
  wait : ∀ {u}, h = .wait u → (s.pcb u).status ≠ .exited
  pipe : ∀ {i}, h = .pipe i → (s.pipes i).valid = true

section Block

variable {x : Option ℕ} {c : ℕ} {s : Kernel} {q : Head → List Task} {t : Task} {h : Head}

@[simp] theorem push_self : push q h t h = q h ++ [t] := Function.update_self ..

theorem push_of_ne {h' : Head} (e : h' ≠ h) : push q h t h' = q h' := Function.update_of_ne e ..

theorem mem_push {u : Task} {h' : Head} : u ∈ push q h t h' ↔ u ∈ q h' ∨ (h' = h ∧ u = t) := by
  by_cases e : h' = h
  · subst e; simp
  · simp [push_of_ne e, e]

theorem setStatus_status (u : Task) (st : Status) :
    ((s.setStatus t st).pcb u).status = if u = t then st else (s.pcb u).status := by
  by_cases e : u = t
  · subst e; simp [Kernel.setStatus, Kernel.setPcb]
  · simp [Kernel.setStatus, Kernel.setPcb, e]

theorem setStatus_pid (u : Task) (st : Status) : ((s.setStatus t st).pcb u).pid = (s.pcb u).pid := by
  by_cases e : u = t
  · subst e; simp [Kernel.setStatus, Kernel.setPcb]
  · simp [Kernel.setStatus, Kernel.setPcb, e]

/-- The process of a CPU puts itself in a queue. -/
theorem Mid.enqueueBlocked (H : Mid (some c) s q) (ht : s.current c = t)
    (hr : (s.pcb t).status = .running) (hp : ∃ i, t = .pcb i) (ho : Open s h) :
    Mid (some c) (enqueue t h (s.setStatus t .blocked)) (push q h t) := by
  have hnot : ∀ k, t ∉ q k := H.notMem (by simp [hr]) (by simp [hr])
  refine ⟨H.rings.enqueue hnot, ?_, ?_, ?_, ?_, ?_, ?_, H.inj, H.own, ?_⟩
  · intro u
    show _ ↔ ((s.setStatus t .blocked).pcb u).status = .ready
    rw [mem_push, setStatus_status, H.ready]
    by_cases e : u = t
    · subst e
      simp [hr, ho.ne.symm]
    · simp [e]
  · intro u
    show _ ↔ ((s.setStatus t .blocked).pcb u).status = .blocked
    rw [setStatus_status]
    by_cases e : u = t
    · rw [if_pos e]
      exact ⟨fun _ => rfl, fun _ => ⟨h, ho.ne, mem_push.2 (Or.inr ⟨rfl, e⟩)⟩⟩
    · rw [if_neg e, ← H.blocked]
      simp [mem_push, e]
  · intro k
    obtain ⟨i, rfl⟩ := hp
    show ((s.setStatus (.pcb i) .blocked).pcb (.idle k)).status = .running ∧
      ((s.setStatus (.pcb i) .blocked).pcb (.idle k)).pid = 0
    rw [setStatus_status, setStatus_pid, if_neg (by simp)]
    exact H.idle k
  · intro i
    show ((s.setStatus t .blocked).pcb (.pcb i)).status ≠ .exited →
      ((s.setStatus t .blocked).pcb (.pcb i)).pid ≠ 0
    rw [setStatus_status, setStatus_pid]
    intro h1
    refine H.pid i ?_
    by_cases e : (.pcb i) = t
    · rw [e, hr]; simp
    · rwa [if_neg e] at h1
  · intro u
    show ((s.setStatus t .blocked).pcb u).status = .exited → _
    rw [setStatus_status]
    intro h1 h2
    by_cases e : u = t
    · rw [if_pos e] at h1; cases h1
    · rw [if_neg e] at h1
      rw [push_of_ne (by rintro rfl; exact ho.wait rfl h1)]
      exact H.exited h1 h2
  · intro i hv
    have hne : (.pipe i : Head) ≠ h := by
      intro e
      have hv : (s.pipes i).valid = false := hv
      rw [ho.pipe e.symm] at hv
      cases hv
    rw [push_of_ne hne]
    exact H.pipe hv
  · intro a ha
    show ((s.setStatus t .blocked).pcb (s.current a)).status = .running
    rw [setStatus_status, if_neg]
    · exact H.running ha
    · intro e
      exact ha (by rw [H.inj (e.trans ht.symm)])

theorem doBlock_eq (hk : (s.pcb t).killed = false) :
    doBlock t h s = ((enqueue t h s).setStatus t .blocked).addLog (.block t h) := by
  rw [doBlock, if_neg (by simp [hk])]

/-- **do_block** of the process of a CPU. -/
theorem Mid.doBlock (H : Mid (some c) s q) (ht : s.current c = t) (hr : (s.pcb t).status = .running)
    (hp : ∃ i, t = .pcb i) (hk : (s.pcb t).killed = false) (ho : Open s h) :
    Mid (some c) (doBlock t h s) (push q h t) := by
  rw [doBlock_eq hk]
  exact H.enqueueBlocked ht hr hp ho

end Block

/-! ## Waking -/

section Wake

variable {x : Option ℕ} {c : ℕ} {s : Kernel} {q : Head → List Task} {t : Task} {h : Head}
  {xs ys : List Task}

/-- The state after `t` has been woken. -/
def woken (t : Task) (l : Links Task Head) (s : Kernel) : Kernel :=
  ((s.setLinks l).setStatus t .ready).addLog (.wake t)

/-- The queues after `t` has moved to the ready queue and left `xs` in `h`. -/
def moved (q : Head → List Task) (h : Head) (xs : List Task) (t : Task) : Head → List Task :=
  push (Function.update q h xs) .ready t

theorem mem_moved {u : Task} {h' : Head} (hh : h ≠ .ready) :
    u ∈ moved q h xs t h' ↔ (h' = h ∧ u ∈ xs) ∨ (h' ≠ h ∧ u ∈ q h') ∨ (h' = .ready ∧ u = t) := by
  rw [moved, mem_push]
  by_cases e : h' = h
  · subst e; simp [hh]
  · simp [e]

/-- Waking a process that is first taken out of its queue. -/
theorem Mid.wake {l : Links Task Head} (H : Mid x s q) (hh : h ≠ .ready) (hq : q h = xs ++ t :: ys)
    (hl : Rings l (moved q h (xs ++ ys) t)) :
    Mid x (woken t l s) (moved q h (xs ++ ys) t) := by
  have hth : t ∈ q h := by rw [hq]; simp
  have hbl : (s.pcb t).status = .blocked := H.blocked.1 ⟨h, hh, hth⟩
  have hnd : t ∉ xs ++ ys := by
    have := H.rings.nodup h
    rw [hq] at this
    exact (List.nodup_middle.1 this).notMem
  have hxs : ∀ {u}, u ≠ t → (u ∈ xs ++ ys ↔ u ∈ q h) := by
    intro u hu
    rw [hq]
    simp [hu]
  obtain ⟨i, hi⟩ := H.mem_pcb hth
  refine ⟨hl, ?_, ?_, ?_, ?_, ?_, ?_, H.inj, H.own, ?_⟩
  · intro u
    show _ ↔ ((s.setStatus t .ready).pcb u).status = .ready
    rw [mem_moved hh, setStatus_status]
    by_cases e : u = t
    · simp [e]
    · simp [e, hh.symm, H.ready]
  · intro u
    show _ ↔ ((s.setStatus t .ready).pcb u).status = .blocked
    rw [setStatus_status]
    by_cases e : u = t
    · rw [if_pos e]
      simp only [mem_moved hh, e]
      refine ⟨?_, by simp⟩
      rintro ⟨k, hk, ⟨-, h1⟩ | ⟨h1, h2⟩ | ⟨h1, -⟩⟩
      · exact absurd h1 hnd
      · exact absurd (H.rings.disj h2 hth) h1
      · exact absurd h1 hk
    · rw [if_neg e, ← H.blocked]
      refine exists_congr fun k => and_congr_right fun hk => ?_
      rw [mem_moved hh]
      by_cases ek : k = h
      · subst ek; simp [hxs e, hk]
      · simp [ek, hk]
  · intro k
    show ((s.setStatus t .ready).pcb (.idle k)).status = .running ∧
      ((s.setStatus t .ready).pcb (.idle k)).pid = 0
    rw [setStatus_status, setStatus_pid, if_neg (by simp [hi])]
    exact H.idle k
  · intro j
    show ((s.setStatus t .ready).pcb (.pcb j)).status ≠ .exited →
      ((s.setStatus t .ready).pcb (.pcb j)).pid ≠ 0
    rw [setStatus_status, setStatus_pid]
    intro h1
    refine H.pid j ?_
    by_cases e : .pcb j = t
    · rw [e, hbl]; simp
    · rwa [if_neg e] at h1
  · intro u
    show ((s.setStatus t .ready).pcb u).status = .exited → _
    rw [setStatus_status]
    intro h1 h2
    by_cases e : u = t
    · rw [if_pos e] at h1; cases h1
    · rw [if_neg e] at h1
      have hw := H.exited h1 h2
      have hne : (.wait u : Head) ≠ h := by
        rintro rfl
        rw [hw] at hth; cases hth
      rw [moved, push_of_ne (by simp), Function.update_of_ne hne, hw]
  · intro k hv
    have hw := H.pipe hv
    have hne : (.pipe k : Head) ≠ h := by
      rintro rfl
      rw [hw] at hth; cases hth
    rw [moved, push_of_ne (by simp), Function.update_of_ne hne, hw]
  · intro a ha
    show ((s.setStatus t .ready).pcb (s.current a)).status = .running
    have hr := H.running ha
    rw [setStatus_status, if_neg]
    · exact hr
    · intro e
      rw [e, hbl] at hr; cases hr

/-- **do_unblock** moves an element from the middle of a queue to the end of the ready queue. -/
theorem rings_doUnblock (H : Rings s.links q) (hq : q h = xs ++ t :: ys) :
    Rings (doUnblock t s).links (moved q h (xs ++ ys) t) := by
  refine (H.delNode hq).enqueue fun k hk => ?_
  have hnd := H.nodup h
  rw [hq] at hnd
  by_cases e : k = h
  · subst e
    rw [Function.update_self] at hk
    exact (List.nodup_middle.1 hnd).notMem hk
  · rw [Function.update_of_ne e] at hk
    exact e (H.disj hk (by rw [hq]; simp))

/-- **do_unblock** of a process that waits in `h`. -/
theorem Mid.doUnblock (H : Mid x s q) (hh : h ≠ .ready) (hq : q h = xs ++ t :: ys) :
    Mid x (doUnblock t s) (moved q h (xs ++ ys) t) :=
  H.wake hh hq (rings_doUnblock H.rings hq)

/-- **dequeue** followed by **do_unblock**. -/
theorem Mid.dequeue (H : Mid x s q) (hh : h ≠ .ready) (hq : q h = t :: ys) :
    ∃ l l', Sched.dequeue h s = some (t, s.setLinks l) ∧
      Sched.doUnblock t (s.setLinks l) = woken t l' s ∧
      Mid x (woken t l' s) (moved q h ys t) := by
  obtain ⟨l, h1, h2, h3⟩ := H.rings.dequeue_cons hq
  refine ⟨l, Links.enqueue (.inl t) (.inr .ready) l, ?_, ?_, ?_⟩
  · rw [Sched.dequeue, h1]
  · show woken t (Links.enqueue (.inl t) (.inr .ready) (Links.delNode (.inl t) l)) s = _
    rw [h3]
  · refine H.wake hh (show q h = [] ++ t :: ys from hq) (h2.enqueue fun k hk => ?_)
    have hnd := H.rings.nodup h
    rw [hq] at hnd
    by_cases e : k = h
    · subst e
      rw [Function.update_self] at hk
      exact hnd.notMem hk
    · rw [Function.update_of_ne e] at hk
      exact e (H.rings.disj hk (by rw [hq]; simp))

/-! ### Waking a whole queue -/

/-- The state after the processes `ts` have been woken. -/
def wokenAll (ts : List Task) (l : Links Task Head) (s : Kernel) : Kernel :=
  { s with
    links := l
    pcb := fun t => if t ∈ ts then { s.pcb t with status := .ready } else s.pcb t
    log := s.log ++ ts.map .wake }

/-- The queues after `ts` have moved to the ready queue and left `xs` in `h`. -/
def movedAll (q : Head → List Task) (h : Head) (xs ts : List Task) : Head → List Task :=
  Function.update (Function.update q h xs) .ready (q .ready ++ ts)

theorem movedAll_self (q : Head → List Task) (hh : h ≠ .ready) (xs ts : List Task) :
    movedAll q h xs ts h = xs := by
  rw [movedAll, Function.update_of_ne hh, Function.update_self]

theorem wokenAll_nil : wokenAll [] s.links s = s := by
  simp [wokenAll]

theorem wokenAll_cons {l l' : Links Task Head} {ts : List Task} :
    wokenAll ts l' (woken t l s) = wokenAll (t :: ts) l' s := by
  simp only [wokenAll, woken, Kernel.setStatus, Kernel.setPcb, Kernel.setLinks, Kernel.addLog, List.map_cons,
    List.append_assoc, List.singleton_append]
  congr 1
  funext u
  by_cases e : u = t
  · subst e; simp
  · simp [e]

theorem movedAll_nil (hq : q h = xs) : movedAll q h xs [] = q := by
  simp [movedAll, ← hq]

theorem movedAll_cons {ts zs : List Task} (hh : h ≠ .ready) (xs : List Task) :
    movedAll (moved q h xs t) h zs ts = movedAll q h zs (t :: ts) := by
  funext k
  simp only [movedAll, moved, push, Function.update_self]
  by_cases e1 : k = .ready
  · subst e1
    simp only [Function.update_self]
    rw [Function.update_of_ne (Ne.symm hh)]
    simp
  · rw [Function.update_of_ne e1, Function.update_of_ne e1]
    by_cases e2 : k = h
    · subst e2; simp only [Function.update_self]
    · rw [Function.update_of_ne e2, Function.update_of_ne e1, Function.update_of_ne e2,
        Function.update_of_ne e2]

/-- What `do_unblock` of the processes in `h` keeps, among other things the rings. -/
structure Wakes (h : Head) (I : Kernel → (Head → List Task) → Prop) : Prop where
  rings : ∀ s q, I s q → Rings s.links q
  step : ∀ s q xs t ys, I s q → q h = xs ++ t :: ys → I (doUnblock t s) (moved q h (xs ++ ys) t)

theorem Mid.wakes (hh : h ≠ .ready) : Wakes h (Mid x) :=
  ⟨fun _ _ H => H.rings, fun _ _ _ _ _ H hq => H.doUnblock hh hq⟩

theorem rings_wakes (h : Head) : Wakes h fun s q => Rings s.links q :=
  ⟨fun _ _ H => H, fun _ _ _ _ _ H hq => rings_doUnblock H hq⟩

/-- The walk of **wakeup**. -/
theorem Wakes.wakeupFrom {I : Kernel → (Head → List Task) → Prop} (W : Wakes h I) (hh : h ≠ .ready)
    {ts : List Task} (H : I s q) (hq : q h = ts) :
    ∃ l, (∀ fuel, ts.length < fuel →
        Sched.wakeupFrom h fuel (s.links.next (.inr h)) s = some (wokenAll ts l s)) ∧
      I (wokenAll ts l s) (movedAll q h [] ts) := by
  induction ts generalizing s q with
  | nil =>
    have hs := (W.rings s q H).seg h
    rw [hq] at hs
    refine ⟨s.links, fun fuel hlt => ?_, ?_⟩
    · obtain ⟨fuel, rfl⟩ := Nat.exists_eq_succ_of_ne_zero (by omega : fuel ≠ 0)
      rw [hs.next_nil, Sched.wakeupFrom, if_pos rfl, wokenAll_nil]
    · rw [wokenAll_nil, movedAll_nil hq]
      exact H
  | cons t ys ih =>
    have hs := (W.rings s q H).seg h
    rw [hq] at hs
    have H' := W.step s q [] t ys H hq
    have hmq : moved q h ([] ++ ys) t h = ys := by
      rw [moved, push_of_ne hh, Function.update_self]; rfl
    -- the next node is read before the front is moved
    have hnext : s.links.next (.inl t) = (Sched.doUnblock t s).links.next (.inr h) := by
      have hs' := (W.rings _ _ H').seg h
      rw [hmq] at hs'
      cases ys with
      | nil => rw [hs.2.next_nil, hs'.next_nil]
      | cons y ys => rw [hs.2.next_cons, hs'.next_cons]
    obtain ⟨l, h1, h2⟩ := ih H' hmq
    have he : wokenAll ys l (Sched.doUnblock t s) = wokenAll (t :: ys) l s := wokenAll_cons
    rw [he] at h1 h2
    refine ⟨l, fun fuel hlt => ?_, ?_⟩
    · obtain ⟨fuel, rfl⟩ := Nat.exists_eq_succ_of_ne_zero (by omega : fuel ≠ 0)
      rw [hs.next_cons, Sched.wakeupFrom, hnext]
      exact h1 fuel (Nat.lt_of_succ_lt_succ hlt)
    · rw [← movedAll_cons hh ([] ++ ys)]
      exact h2

/-- **wakeup** empties a queue into the ready queue, in order. -/
theorem Mid.wakeup (H : Mid x s q) (hh : h ≠ .ready) :
    ∃ l, Sched.wakeup h s = some (wokenAll (q h) l s) ∧
      Mid x (wokenAll (q h) l s) (movedAll q h [] (q h)) := by
  obtain ⟨l, h1, h2⟩ := (Mid.wakes hh).wakeupFrom hh H rfl
  exact ⟨l, h1 walkFuel (H.length_lt h), h2⟩

/-! ### Sleepers -/

/-- The first node of the rest of a queue. -/
def firstNode (h : Head) : List Task → Node
  | [] => .inr h
  | t :: _ => .inl t

theorem seg_firstNode {l : Links Task Head} {a : Node} (hs : l.Seg a xs (.inr h)) :
    l.next a = firstNode h xs := by
  cases xs with
  | nil => exact hs.next_nil
  | cons t xs => exact hs.next_cons

theorem wokenAll_status {ts : List Task} {l : Links Task Head} (u : Task) :
    ((wokenAll ts l s).pcb u).status = if u ∈ ts then .ready else (s.pcb u).status := by
  unfold wokenAll
  split_ifs with e <;> simp [e]

theorem doUnblock_wakeupTime (u : Task) :
    ((doUnblock t s).pcb u).wakeupTime = (s.pcb u).wakeupTime := by
  show (Function.update s.pcb t { s.pcb t with status := .ready } u).wakeupTime = _
  by_cases e : u = t
  · rw [e, Function.update_self]
  · rw [Function.update_of_ne e]

/-- The sleepers whose time has come. -/
def due (now : ℕ) (s : Kernel) (ts : List Task) : List Task :=
  ts.filter fun t => (s.pcb t).wakeupTime ≤ now

/-- The sleepers whose time has not come. -/
def early (now : ℕ) (s : Kernel) (ts : List Task) : List Task :=
  ts.filter fun t => ¬ (s.pcb t).wakeupTime ≤ now

/-- The walk of **check_sleeping**: `ks` are the sleepers passed so far. -/
theorem Wakes.checkSleepingFrom {I : Kernel → (Head → List Task) → Prop} (W : Wakes .sleep I) (now : ℕ)
    (ks : List Task) {rest : List Task} (H : I s q) (hq : q .sleep = ks ++ rest) :
    ∃ l, (∀ fuel, rest.length < fuel →
        Sched.checkSleepingFrom now fuel (firstNode .sleep rest) s =
          some (wokenAll (due now s rest) l s)) ∧
      I (wokenAll (due now s rest) l s)
        (movedAll q .sleep (ks ++ early now s rest) (due now s rest)) := by
  induction rest generalizing s q ks with
  | nil =>
    refine ⟨s.links, fun fuel hlt => ?_, ?_⟩
    · obtain ⟨fuel, rfl⟩ := Nat.exists_eq_succ_of_ne_zero (by omega : fuel ≠ 0)
      rw [firstNode, Sched.checkSleepingFrom, if_pos rfl, due, List.filter_nil, wokenAll_nil]
    · rw [due, early, List.filter_nil, List.filter_nil, wokenAll_nil, movedAll_nil hq]
      exact H
  | cons t ys ih =>
    have hs := (W.rings s q H).seg .sleep
    rw [hq] at hs
    have hnext : s.links.next (.inl t) = firstNode .sleep ys :=
      seg_firstNode (Links.seg_append.1 hs).2
    by_cases ht : (s.pcb t).wakeupTime ≤ now
    · have H' := W.step s q ks t ys H hq
      have hmq : moved q .sleep (ks ++ ys) t .sleep = ks ++ ys := by
        rw [moved, push_of_ne (by simp), Function.update_self]
      obtain ⟨l, h1, h2⟩ := ih ks H' hmq
      simp only [due, early, doUnblock_wakeupTime] at h1 h2
      have he : ∀ ts, wokenAll ts l (Sched.doUnblock t s) = wokenAll (t :: ts) l s :=
        fun ts => wokenAll_cons
      rw [he] at h1 h2
      have hf : due now s (t :: ys) = t :: due now s ys := List.filter_cons_of_pos (by simpa using ht)
      have hf' : early now s (t :: ys) = early now s ys := List.filter_cons_of_neg (by simpa using ht)
      refine ⟨l, fun fuel hlt => ?_, ?_⟩
      · obtain ⟨fuel, rfl⟩ := Nat.exists_eq_succ_of_ne_zero (by omega : fuel ≠ 0)
        rw [firstNode, Sched.checkSleepingFrom, hnext, if_pos ht, hf]
        exact h1 fuel (Nat.lt_of_succ_lt_succ hlt)
      · rw [hf, hf', ← movedAll_cons (by simp) (ks ++ ys)]
        exact h2
    · obtain ⟨l, h1, h2⟩ := ih (ks ++ [t]) H (by simp [hq])
      have hf : due now s (t :: ys) = due now s ys := List.filter_cons_of_neg (by simpa using ht)
      have hf' : early now s (t :: ys) = t :: early now s ys := List.filter_cons_of_pos (by simpa using ht)
      refine ⟨l, fun fuel hlt => ?_, ?_⟩
      · obtain ⟨fuel, rfl⟩ := Nat.exists_eq_succ_of_ne_zero (by omega : fuel ≠ 0)
        rw [firstNode, Sched.checkSleepingFrom, hnext, if_neg ht, hf]
        exact h1 fuel (Nat.lt_of_succ_lt_succ hlt)
      · rw [hf, hf']
        rw [List.append_assoc, List.singleton_append] at h2
        exact h2

/-- **check_sleeping** wakes the sleepers whose time has come, in order. -/
theorem Mid.checkSleeping (now : ℕ) (H : Mid x s q) :
    ∃ l ts zs, Sched.checkSleeping now s = some (wokenAll ts l s) ∧
      Mid x (wokenAll ts l s) (movedAll q .sleep zs ts) ∧ ts ⊆ q .sleep ∧ zs ⊆ q .sleep := by
  obtain ⟨l, h1, h2⟩ := (Mid.wakes (by simp)).checkSleepingFrom now [] H rfl
  refine ⟨l, _, _, ?_, h2, List.filter_subset_self _, ?_⟩
  · rw [Sched.checkSleeping, seg_firstNode (H.rings.seg .sleep)]
    exact h1 walkFuel (H.length_lt _)
  · rw [List.nil_append]
    exact List.filter_subset_self _

/-! ### Waking while iterating -/

/-- The processes `ts` have moved, in order and ready, from `h` to the end of the ready queue, `xs` are
left in `h`, and nothing else has changed. -/
structure MovedToReady (h : Head) (xs ts : List Task) (s s' : Kernel) (q q' : Head → List Task) : Prop where
  rings : Rings s'.links q'
  left : q' h = xs
  ready : q' .ready = q .ready ++ ts
  others : ∀ k, k ≠ h → k ≠ .ready → q' k = q k
  pcb : ∀ t, s'.pcb t = if t ∈ ts then { s.pcb t with status := .ready } else s.pcb t
  rest : s' = { s with links := s'.links, pcb := s'.pcb, log := s.log ++ ts.map .wake }

theorem movedToReady_wokenAll {l : Links Task Head} {ts : List Task} (hh : h ≠ .ready)
    (H : Rings l (movedAll q h xs ts)) :
    MovedToReady h xs ts s (wokenAll ts l s) q (movedAll q h xs ts) where
  rings := H
  left := by rw [movedAll, Function.update_of_ne hh, Function.update_self]
  ready := Function.update_self ..
  others := fun k hk hr => by rw [movedAll, Function.update_of_ne hr, Function.update_of_ne hk]
  pcb := fun _ => rfl
  rest := rfl

/-- The loops of `wakeup` and `check_sleeping` come to their end and move the processes that they
should. -/
structure WakesInOrder (s : Kernel) (q : Head → List Task) : Prop where
  wakeup : ∀ h, h ≠ .ready → ∃ s' q',
    (∀ n, (q h).length < n → wakeupFrom h n (s.links.next (.inr h)) s = some s') ∧
    MovedToReady h [] (q h) s s' q q'
  checkSleeping : ∀ now, ∃ s' q',
    (∀ n, (q .sleep).length < n → checkSleepingFrom now n (s.links.next (.inr .sleep)) s = some s') ∧
    MovedToReady .sleep ((q .sleep).filter fun t => ¬ (s.pcb t).wakeupTime ≤ now)
      ((q .sleep).filter fun t => (s.pcb t).wakeupTime ≤ now) s s' q q'

/-- **wakeup** and **check_sleeping** in any memory that holds the queues `q`. -/
theorem wakesInOrder (H : Rings s.links q) : WakesInOrder s q where
  wakeup := by
    intro h hh
    obtain ⟨l, h1, h2⟩ := (rings_wakes h).wakeupFrom hh H rfl
    exact ⟨_, _, h1, movedToReady_wokenAll hh h2⟩
  checkSleeping := by
    intro now
    obtain ⟨l, h1, h2⟩ := (rings_wakes .sleep).checkSleepingFrom now [] H rfl
    rw [seg_firstNode (H.seg .sleep)]
    exact ⟨_, _, h1, movedToReady_wokenAll (by simp) h2⟩

/-- Two sleepers. -/
theorem wakesInOrder_sleepers :
    WakesInOrder (enqueue (.pcb ⟨1, by decide⟩) .sleep (enqueue (.pcb ⟨0, by decide⟩) .sleep boot))
      (push (push (fun _ => []) .sleep (.pcb ⟨0, by decide⟩)) .sleep (.pcb ⟨1, by decide⟩)) := by
  have h0 : Rings boot.links fun _ : Head => ([] : List Task) :=
    ⟨fun _ => And.intro rfl rfl, fun _ => List.nodup_nil, fun h => by cases h⟩
  have h1 : Rings (enqueue (.pcb ⟨0, by decide⟩) .sleep boot).links (push (fun _ => []) .sleep (.pcb ⟨0, by decide⟩)) :=
    h0.enqueue fun _ => List.not_mem_nil
  refine wakesInOrder (h1.enqueue fun k hk => ?_)
  rcases mem_push.1 hk with h | ⟨-, h⟩
  · cases h
  · simp at h

/-! ### Searching a queue -/

/-- **is_in_queue** decides membership. -/
theorem Mid.isInQueue (H : Mid x s q) : Sched.isInQueue t h s = some (decide (t ∈ q h)) :=
  Rings.isInFrom walkFuel (q h) (.inr h) (H.rings.seg h) (H.length_lt h)

theorem Mid.isEmptyQueue (H : Mid x s q) : Sched.isEmptyQueue h s = (q h).isEmpty :=
  H.rings.isEmptyQueue h

/-- **visit** takes the first process out that passes the test. -/
theorem visit_rings {judge : Task → Bool} (H : Rings s.links q) (hlen : (q h).length < walkFuel) :
    (visit h judge s = some (none, s) ∧ ∀ t ∈ q h, judge t = false) ∨
      ∃ t xs ys l, q h = xs ++ t :: ys ∧ visit h judge s = some (some t, s.setLinks l) ∧
        Rings l (Function.update q h (xs ++ ys)) := by
  rcases Rings.visitFrom judge walkFuel (q h) (.inr h) (H.seg h) hlen with
    ⟨h1, h2⟩ | ⟨us, t, vs, h1, -, -, h4⟩
  · refine Or.inl ⟨?_, h2⟩
    rw [visit, h1]; rfl
  · refine Or.inr ⟨t, us, vs, Links.delNode (.inl t) s.links, h1, ?_, H.delNode h1⟩
    rw [visit, h4]; rfl

end Wake

end RiscvKernel.Sched
