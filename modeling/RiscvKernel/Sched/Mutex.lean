import RiscvKernel.Sched.Agreement

/-!
# The protocol of a mutex slot

A slot is free or belongs to one process, which is inside its critical section or has been handed the
mutex and is about to return from the call that waits for it. All others that wait for the slot are in its
queue. The slot is handed over in `do_mutex_lock_release`; the process that is woken does not look at it
again.

`do_condition_wait` gives the mutex up and takes it again before it returns, so it is a release and an
acquire.
-/

namespace RiscvKernel.Sched

open Lib Mm

variable {c i : ℕ} {P : Obj → Prop} {o : Obj} {s s' s1 s2 : Kernel} {q q' q1 : Queues} {t u : Task}
  {w e : Option Task} {call : Call} {a : Act} {as : List Act}

/-! ## Critical sections -/

/-- A process that returns from the call has mutex `i`. -/
def Call.takes (i : ℕ) : Call → Bool
  | .mutexAcquire idx => idx = i
  | .condWait cond mutex => mutex = i ∧ 0 ≤ cond ∧ cond < conditionNum
  | _ => false

/-- A process that makes the call gives mutex `i` up. -/
def Call.gives (i : ℕ) : Call → Bool
  | .mutexRelease idx => idx = i
  | .condWait cond mutex => mutex = i ∧ 0 ≤ cond ∧ cond < conditionNum
  | _ => false

def insideStep (i : ℕ) (t : Task) (b : Bool) : Event → Bool
  | .enter u call => if u = t ∧ call.gives i then false else b
  | .ret u call _ => if u = t ∧ call.takes i then true else b
  | .create u => if u = t then false else b
  | .exit u => if u = t then false else b
  | _ => b

/-- The process is between the return of its acquire of mutex `i` and its release. -/
def inside (i : ℕ) (t : Task) (log : List Event) : Bool := log.foldl (insideStep i t) false

theorem inside_append (log es : List Event) :
    inside i t (log ++ es) = es.foldl (insideStep i t) (inside i t log) := List.foldl_append ..

theorem inside_wake (b : Bool) (ts : List Task) : (ts.map Event.wake).foldl (insideStep i t) b = b := by
  induction ts with
  | nil => rfl
  | cons u ts ih => exact ih

/-- The process is in a call that waits for mutex `i`. -/
def Waits (i : ℕ) (t : Task) (s : Kernel) : Prop :=
  ∃ call r, call.takes i ∧ s.cont t = .inCall call (.ret r)

/-- Small steps do not put a process into its critical section. -/
theorem Micro.inside_mono (hm : Micro c o s q s' q') (h : inside i t s'.log) : inside i t s.log := by
  cases hm with
  | memory | sleepUntil | kill | key | mutex | cond | barrier | mbox | pipe => exact h
  | create j p m l =>
    have h : inside i t (s.log ++ [.create (.pcb j)]) = true := h
    rw [inside_append, List.foldl_cons, List.foldl_nil, insideStep] at h
    split_ifs at h
    exact h
  | put | got | block => exact (inside_append s.log _).symm.trans h
  | wake k ts rest l =>
    have h : inside i t (s.log ++ ts.map .wake) = true := h
    rwa [inside_append, inside_wake] at h
  | exit m hr =>
    have h : inside i t ((freed (s.current c) m s).log ++ [.exit (s.current c)]) = true := h
    rw [inside_append, List.foldl_cons, List.foldl_nil, insideStep] at h
    split_ifs at h
    unfold freed at h
    split_ifs at h
    · exact (inside_append s.log [.freeAll _ _]).symm.trans h
    · exact h

/-- Nor do they take a process out of it, unless it ends. -/
theorem Micro.inside_eq (hm : Micro c o s q s' q') (hx : o = .exit → t ≠ s.current c)
    (ht : (s.pcb t).status ≠ .exited) : inside i t s'.log = inside i t s.log := by
  cases hm with
  | memory | sleepUntil | kill | key | mutex | cond | barrier | mbox | pipe => rfl
  | create j p m l he =>
    refine (inside_append s.log [.create (.pcb j)]).trans (if_neg ?_)
    rintro rfl
    exact ht he
  | put | got | block => exact inside_append s.log _
  | wake k ts rest l => exact (inside_append s.log _).trans (inside_wake _ ts)
  | exit m hr =>
    have hf : inside i t (freed (s.current c) m s).log = inside i t s.log := by
      unfold freed
      split_ifs
      · exact inside_append s.log [.freeAll _ _]
      · rfl
    refine (inside_append _ [.exit (s.current c)]).trans ((if_neg ?_).trans hf)
    exact fun h => hx rfl h.symm

/-! ## The invariant of a slot -/

/-- Slot `i` belongs to `w`. The process `e`, which is in the middle of a step, may be anywhere. -/
structure Slot (i : ℕ) (w e : Option Task) (s : Kernel) (q : Queues) : Prop where
  free : w = none → (s.mlocks i).status = .unlocked ∧ (s.mlocks i).pid = 0 ∧ q (.mutex i) = []
  held : ∀ t, w = some t → (s.mlocks i).status = .locked ∧ (s.mlocks i).pid = (s.pcb t).pid ∧
    (s.pcb t).status ≠ .exited ∧ ∃ j, t = .pcb j
  inside : ∀ t, some t ≠ e → Sched.inside i t s.log → w = some t
  owner : ∀ t, some t ≠ e → w = some t → Sched.inside i t s.log ∨ Waits i t s ∧ t ∉ q (.mutex i)
  queue : ∀ t, some t ≠ e → t ∈ q (.mutex i) → Waits i t s
  cont : ∀ t, some t ≠ e → Waits i t s → t ∈ q (.mutex i) ∨ w = some t

theorem Slot.weaken (S : Slot i w none s q) : Slot i w e s q where
  free := S.free
  held := S.held
  inside := fun t _ => S.inside t (by simp)
  owner := fun t _ => S.owner t (by simp)
  queue := fun t _ => S.queue t (by simp)
  cont := fun t _ => S.cont t (by simp)

/-- The step of `t` is over. -/
theorem Slot.finish (S : Slot i w (some t) s q) (h1 : Sched.inside i t s.log → w = some t)
    (h2 : w = some t → Sched.inside i t s.log ∨ Waits i t s ∧ t ∉ q (.mutex i))
    (h3 : t ∈ q (.mutex i) → Waits i t s) (h4 : Waits i t s → t ∈ q (.mutex i) ∨ w = some t) :
    Slot i w none s q := by
  refine ⟨S.free, S.held, fun u _ => ?_, fun u _ => ?_, fun u _ => ?_, fun u _ => ?_⟩
  · by_cases e : u = t
    · rw [e]; exact h1
    · exact S.inside u (by simpa using e)
  · by_cases e : u = t
    · rw [e]; exact h2
    · exact S.owner u (by simpa using e)
  · by_cases e : u = t
    · rw [e]; exact h3
    · exact S.queue u (by simpa using e)
  · by_cases e : u = t
    · rw [e]; exact h4
    · exact S.cont u (by simpa using e)

/-- A process that has not ended keeps its pid and its place. -/
theorem Micro.keeps (hm : Micro c o s q s' q') (M : Mid (some c) s q) (M' : Mid (some c) s' q')
    (ht : (s.pcb t).status ≠ .exited) : (s'.pcb t).pid = (s.pcb t).pid ∧ s'.cont t = s.cont t := by
  rcases hm.lives M M' with ⟨j, p, m, l, he, -, -, -, rfl⟩ | L
  · have hne : t ≠ .pcb j := by
      rintro rfl
      exact ht he
    exact ⟨by rw [created_pcb, if_neg hne], Function.update_of_ne hne ..⟩
  · exact ⟨L.pid t, by rw [L.cont]⟩

/-- Who is in the middle of a call has been there before. -/
theorem Micro.waits (hm : Micro c o s q s' q') (M : Mid (some c) s q) (M' : Mid (some c) s' q')
    (h : Waits i t s') : Waits i t s := by
  obtain ⟨call, r, h1, h2⟩ := h
  rcases hm.lives M M' with ⟨j, p, m, l, -, -, -, -, rfl⟩ | L
  · have h2 : Function.update s.cont (.pcb j) .fresh t = .inCall call (.ret r) := h2
    rw [Function.update_apply] at h2
    split_ifs at h2
    exact ⟨call, r, h1, h2⟩
  · rw [L.cont] at h2
    exact ⟨call, r, h1, h2⟩

/-- **Small steps about other things** leave the slot alone. -/
theorem Micro.slot (hm : Micro c o s q s' q') (M : Mid (some c) s q) (M' : Mid (some c) s' q')
    (ho : o ≠ .mutex i) (hx : o = .exit → w ≠ some (s.current c) ∧ e = some (s.current c))
    (S : Slot i w e s q) : Slot i w e s' q' := by
  obtain ⟨-, hl, hpid⟩ := hm.mlocks ho
  have hq : q' (.mutex i) = q (.mutex i) := hm.queue ho (by simp)
  have hblocked : ∀ t, t ∈ q (.mutex i) → (s.pcb t).status ≠ .exited := by
    intro t ht
    rw [M.blocked.1 ⟨.mutex i, by simp, ht⟩]
    simp
  have hw : ∀ t, (s.pcb t).status ≠ .exited → Waits i t s → Waits i t s' := by
    rintro t ht ⟨call, r, h1, h2⟩
    exact ⟨call, r, h1, by rw [(hm.keeps M M' ht).2, h2]⟩
  refine ⟨fun h => ?_, fun t ht => ?_, fun t ht hin => ?_, fun t ht hwt => ?_,
    fun t ht hmem => ?_, fun t ht hwt => ?_⟩
  · rw [hl, hpid, hq]
    exact S.free h
  · obtain ⟨h1, h2, h3, h4⟩ := S.held t ht
    rw [hl, hpid, (hm.keeps M M' h3).1]
    refine ⟨h1, h2, ?_, h4⟩
    by_cases hoe : o = .exit
    · cases hm with
      | exit m hr =>
        rw [markExited_pcb, freed_pcb, if_neg]
        · exact h3
        · rintro rfl
          exact (hx rfl).1 ht
      | block k => cases k <;> cases hoe
      | wake k => cases k <;> cases hoe
      | _ => cases hoe
    · exact hm.exits hoe h3
  · exact S.inside t ht (hm.inside_mono hin)
  · have h3 := (S.held t hwt).2.2.1
    have hne : o = .exit → t ≠ s.current c := by
      rintro hoe rfl
      exact (hx hoe).1 hwt
    rw [hq, hm.inside_eq hne h3]
    exact (S.owner t ht hwt).imp_right fun h => ⟨hw t h3 h.1, h.2⟩
  · rw [hq] at hmem
    exact hw t (hblocked t hmem) (S.queue t ht hmem)
  · rw [hq]
    exact S.cont t ht (hm.waits M M' hwt)

theorem Micros.slot (hm : Micros c P (s, q) (s', q')) (M : Mid (some c) s q) (hP : ¬ P (.mutex i))
    (hx : P .exit → w ≠ some (s.current c) ∧ e = some (s.current c)) (S : Slot i w e s q) :
    Slot i w e s' q' := by
  refine (hm.inv (I := fun s' q' => Slot i w e s' q' ∧ s'.current = s.current)
    (fun o s1 q1 s2 q2 ho hI M hm M' => ?_) M ⟨S, rfl⟩).1.1
  refine ⟨hm.slot M M' (fun e => hP (e ▸ ho)) (fun e => ?_) hI.1, hm.current.trans hI.2⟩
  rw [hI.2]
  exact hx (e ▸ ho)

/-! ## What the calls do to a slot -/

/-- The process of CPU `c` takes a free mutex. -/
theorem Slot.take (S : Slot i none (some (s.current c)) s q) (ht : ∃ j, s.current c = .pcb j)
    (hx : (s.cur c).status ≠ .exited) :
    Slot i (some (s.current c)) (some (s.current c))
      (s.setMutex i { s.mlocks i with status := .locked, pid := (s.cur c).pid }) q := by
  obtain ⟨-, -, hq⟩ := S.free rfl
  have hm : (s.setMutex i { s.mlocks i with status := .locked, pid := (s.cur c).pid }).mlocks i =
      { s.mlocks i with status := .locked, pid := (s.cur c).pid } := Function.update_self ..
  refine ⟨by simp, fun t h => ?_, fun t h hin => ?_, fun t h hw => ?_,
    fun t h hmem => ?_, fun t h hw => ?_⟩
  · cases h
    rw [hm]
    exact ⟨rfl, rfl, hx, ht⟩
  · exact absurd (S.inside t h hin) (by simp)
  · exact absurd hw.symm h
  · rw [hq] at hmem
    cases hmem
  · rcases S.cont t h hw with h1 | h1
    · rw [hq] at h1
      cases h1
    · cases h1

/-- The process of CPU `c` waits for the mutex of another. -/
theorem Slot.wait (S : Slot i w (some (s.current c)) s q) (hw : w ≠ none)
    (hk : (s.cur c).killed = false) :
    Slot i w (some (s.current c)) (doBlock (s.current c) (.mutex i) s)
      (push q (.mutex i) (s.current c)) := by
  rw [doBlock_eq hk]
  have hpcb : ∀ u, (((enqueue (s.current c) (.mutex i) s).setStatus (s.current c) .blocked).addLog
      (.block (s.current c) (.mutex i))).pcb u =
      if u = s.current c then { s.pcb (s.current c) with status := .blocked } else s.pcb u :=
    fun u => setPcb_apply (s := s) u _
  have hin : ∀ t, Sched.inside i t (s.log ++ [.block (s.current c) (.mutex i)]) =
      Sched.inside i t s.log := fun t => inside_append s.log _
  refine ⟨fun h => absurd h hw, fun t h => ?_, fun t h h1 => ?_, fun t h h1 => ?_,
    fun t h hmem => ?_, fun t h h1 => ?_⟩
  · obtain ⟨h1, h2, h3, h4⟩ := S.held t h
    refine ⟨h1, ?_, ?_, h4⟩
    · rw [hpcb]
      split_ifs with e
      · rw [e] at h2
        exact h2
      · exact h2
    · rw [hpcb]
      split_ifs
      · simp
      · exact h3
  · exact S.inside t h ((hin t).symm.trans h1)
  · refine (S.owner t h h1).imp (fun h2 => (hin t).trans h2) fun h2 => ⟨h2.1, ?_⟩
    rw [mem_push]
    rintro (h3 | ⟨-, h3⟩)
    · exact h2.2 h3
    · exact h (by rw [h3])
  · rcases mem_push.1 hmem with h1 | ⟨-, h1⟩
    · exact S.queue t h h1
    · exact absurd (by rw [h1]) h
  · exact (S.cont t h h1).imp_left fun h2 => mem_push.2 (Or.inl h2)

/-- What a release leaves alone. -/
structure Released (i c : ℕ) (s s' : Kernel) (q' : Queues) : Prop where
  cont : s'.cont = s.cont
  current : s'.current = s.current
  pcb : s'.cur c = s.cur c
  inside : ∀ t, Sched.inside i t s'.log = Sched.inside i t s.log
  mem : s.current c ∉ q' (.mutex i)

/-- The owner gives the mutex up: it goes to the process that has waited longest, or it is free. -/
theorem Slot.handOver (S : Slot i (some (s.current c)) (some (s.current c)) s q) (hi : i < lockNum)
    (M : Mid (some c) s q) (hl : (s.mlocks i).lock = .unlocked) (hn : s.current c ∉ q (.mutex i))
    (hs : doMutexLockRelease c i s = some s') :
    ∃ w' q', Slot i w' (some (s.current c)) s' q' ∧ w' ≠ some (s.current c) ∧ Mid (some c) s' q' ∧
      Released i c s s' q' := by
  obtain ⟨h1, h2, h3, h4⟩ := S.held _ rfl
  have hin : ∀ t, some t ≠ some (s.current c) → ¬ Sched.inside i t s.log := by
    intro t ht h
    exact ht (S.inside t ht h).symm
  cases hq : q (.mutex i) with
  | nil =>
    rw [doMutexLockRelease_last M hi hl h2.symm hq] at hs
    cases hs
    have hm : (s.setMutex i ⟨.unlocked, .unlocked, unused, 0⟩).mlocks i =
      ⟨.unlocked, .unlocked, unused, 0⟩ := Function.update_self ..
    refine ⟨none, q, ⟨fun _ => ?_, by simp, fun t ht h => absurd h (hin t ht), by simp,
      S.queue, fun t ht h => ?_⟩, by simp, M, ⟨rfl, rfl, rfl, fun _ => rfl, hn⟩⟩
    · rw [hm]
      exact ⟨rfl, rfl, hq⟩
    · exact Or.inl ((S.cont t ht h).resolve_right fun h => ht h.symm)
  | cons t ns =>
    obtain ⟨l, h5, h6⟩ := doMutexLockRelease_next M hi hl h2.symm hq
    rw [h5] at hs
    cases hs
    have htq : t ∈ q (.mutex i) := by rw [hq]; simp
    have htc : t ≠ s.current c := fun e => hn (e ▸ htq)
    have htb : (s.pcb t).status = .blocked := M.blocked.1 ⟨.mutex i, by simp, htq⟩
    have hnd := M.rings.nodup (.mutex i)
    rw [hq] at hnd
    have hmq : moved q (.mutex i) ns t (.mutex i) = ns := by
      rw [moved, push_of_ne (by simp), Function.update_self]
    have hm : ((woken t l s).setMutex i { s.mlocks i with pid := (s.pcb t).pid }).mlocks i =
      { s.mlocks i with pid := (s.pcb t).pid } := Function.update_self ..
    have hpcb : ∀ u, ((woken t l s).setMutex i { s.mlocks i with pid := (s.pcb t).pid }).pcb u =
      if u = t then { s.pcb t with status := .ready } else s.pcb u := fun u => setPcb_apply (s := s) u _
    have hlog : ∀ u, Sched.inside i u ((woken t l s).setMutex i
        { s.mlocks i with pid := (s.pcb t).pid }).log = Sched.inside i u s.log :=
      fun u => inside_append s.log [.wake t]
    refine ⟨some t, moved q (.mutex i) ns t, ⟨by simp, fun u hu => ?_,
      fun u hu h => absurd ((hlog u).symm.trans h) (hin u hu), fun u hu hw => ?_, fun u hu h => ?_,
      fun u hu h => ?_⟩, by simpa using htc, h6, ⟨rfl, rfl, ?_, hlog, ?_⟩⟩
    · cases hu
      rw [hm, hpcb, if_pos rfl]
      exact ⟨h1, rfl, by simp, M.mem_pcb htq⟩
    · cases hw
      rw [hmq]
      exact Or.inr ⟨S.queue t hu htq, hnd.notMem⟩
    · rw [hmq] at h
      exact S.queue u hu (by rw [hq]; simp [h])
    · rw [hmq]
      rcases S.cont u hu h with h7 | h7
      · rw [hq, List.mem_cons] at h7
        exact h7.symm.imp_right fun e => by rw [e]
      · exact absurd h7.symm hu
    · exact (hpcb (s.current c)).trans (if_neg (Ne.symm htc))
    · rw [hmq]
      intro h
      exact hn (by rw [hq]; simp [h])

/-- Who has the pid of the slot owns it. -/
theorem Slot.owner_of_pid (S : Slot i w e s q) (G : Good (some c) s q)
    (ht : ∃ j, s.current c = .pcb j) (hx : (s.cur c).status ≠ .exited)
    (hp : (s.cur c).pid = (s.mlocks i).pid) : w = some (s.current c) := by
  obtain ⟨j, hj⟩ := ht
  rw [Kernel.cur, hj] at hx hp
  cases w with
  | none =>
    rw [(S.free rfl).2.1] at hp
    have := (G.pid j hx).1
    omega
  | some u =>
    obtain ⟨-, h2, h3, k, rfl⟩ := S.held u rfl
    rw [hj, G.distinct k j h3 hx (by rw [← h2, hp])]

/-- **do_mutex_lock_release**: the owner gives the mutex up, and another process does nothing but leave the
spin lock held. -/
theorem Slot.release (S : Slot i w (some (s.current c)) s q) (hi : i < lockNum) (G : Good (some c) s q)
    (ht : ∃ j, s.current c = .pcb j) (hx : (s.cur c).status ≠ .exited) (hn : s.current c ∉ q (.mutex i))
    (hs : doMutexLockRelease c i s = some s') :
    ∃ w' q', Slot i w' (some (s.current c)) s' q' ∧ w' ≠ some (s.current c) ∧ Mid (some c) s' q' ∧
      Released i c s s' q' := by
  cases hl : (s.mlocks i).lock with
  | locked => rw [doMutexLockRelease_spin hi hl] at hs; cases hs
  | unlocked =>
    by_cases hp : (s.cur c).pid = (s.mlocks i).pid
    · have hw := S.owner_of_pid G ht hx hp
      subst hw
      exact S.handOver hi G.mid hl hn hs
    · rw [doMutexLockRelease_other hi hl hp] at hs
      cases hs
      have hm : (s.setMutex i { s.mlocks i with lock := .locked }).mlocks i =
        { s.mlocks i with lock := .locked } := Function.update_self ..
      refine ⟨w, q, ⟨fun h => ?_, fun t h => ?_, S.inside, S.owner, S.queue, S.cont⟩, ?_, G.mid,
        ⟨rfl, rfl, rfl, fun _ => rfl, hn⟩⟩
      · rw [hm]
        exact S.free h
      · rw [hm]
        exact S.held t h
      · rintro rfl
        exact hp (S.held _ rfl).2.1.symm

/-! ## Entering and leaving the kernel -/

theorem Slot.setLock (S : Slot i w e s q) (k : Option ℕ) : Slot i w e { s with kernelLock := k } q :=
  ⟨S.free, S.held, S.inside, S.owner, S.queue, S.cont⟩

/-- An event that changes nobody's place but that of `e`. -/
theorem Slot.addLog (S : Slot i w e s q) (ev : Event)
    (hev : ∀ t, some t ≠ e → ∀ b, insideStep i t b ev = b) : Slot i w e (s.addLog ev) q := by
  have hin : ∀ t, some t ≠ e → Sched.inside i t (s.log ++ [ev]) = Sched.inside i t s.log :=
    fun t ht => (inside_append s.log [ev]).trans (hev t ht _)
  refine ⟨S.free, S.held, fun t ht h => S.inside t ht ((hin t ht).symm.trans h),
    fun t ht h => (S.owner t ht h).imp_left fun h1 => (hin t ht).trans h1, S.queue, S.cont⟩

/-- The process `t` goes to another place. -/
theorem Slot.setCont (S : Slot i w (some t) s q) (k : Cont) : Slot i w (some t) (s.setCont t k) q := by
  have hc : ∀ u, some u ≠ some t → (s.setCont t k).cont u = s.cont u :=
    fun u hu => Function.update_of_ne (fun e => hu (by rw [e])) ..
  have hw : ∀ u, some u ≠ some t → (Waits i u (s.setCont t k) ↔ Waits i u s) := by
    intro u hu
    unfold Waits
    rw [hc u hu]
  refine ⟨S.free, S.held, S.inside, fun u hu h => ?_, fun u hu h => (hw u hu).2 (S.queue u hu h),
    fun u hu h => S.cont u hu ((hw u hu).1 h)⟩
  exact (S.owner u hu h).imp_right fun h1 => ⟨(hw u hu).2 h1.1, h1.2⟩

theorem not_waits_setCont {k : Cont}
    (hk : ∀ call r, k = .inCall call (.ret r) → call.takes i = false) : ¬ Waits i t (s.setCont t k) := by
  rintro ⟨call, r, h1, h2⟩
  have h2 : Function.update s.cont t k t = .inCall call (.ret r) := h2
  rw [Function.update_self] at h2
  rw [hk call r h2] at h1
  cases h1

/-- The process `t` leaves a place where it does not wait for the mutex for another such place. -/
theorem Slot.move (S : Slot i w none s q) {k : Cont} (h0 : ¬ Waits i t s)
    (hk : ∀ call r, k = .inCall call (.ret r) → call.takes i = false) :
    Slot i w none (s.setCont t k) q := by
  refine (S.weaken.setCont k).finish (S.inside t (by simp)) (fun h => ?_) (fun h => ?_)
    (fun h => absurd h (not_waits_setCont hk))
  · exact Or.inl ((S.owner t (by simp) h).resolve_right fun h1 => h0 h1.1)
  · exact absurd (S.queue t (by simp) h) h0

/-- The scheduler leaves the slot alone. -/
theorem Slot.switch (S : Slot i w none s q) (W : Switched c s s' q q') : Slot i w none s' q' := by
  have hq : q' (.mutex i) = q (.mutex i) := W.queue _ (by simp) (by simp)
  have hin : ∀ t, Sched.inside i t s'.log = Sched.inside i t s.log := by
    intro t
    obtain ⟨ts, hl, -⟩ := W.log
    rw [hl, inside_append, inside_wake]
  have hw : ∀ t, Waits i t s' ↔ Waits i t s := by
    intro t
    unfold Waits
    rw [W.cont]
  refine ⟨fun h => ?_, fun t h => ?_, fun t ht h => ?_,
    fun t ht h => ?_, fun t ht h => ?_, fun t ht h => ?_⟩
  · rw [W.mlocks, hq]
    exact S.free h
  · obtain ⟨h1, h2, h3, h4⟩ := S.held t h
    rw [W.mlocks, W.pcb t]
    exact ⟨h1, h2, fun h5 => h3 ((W.exited t).1 h5), h4⟩
  · exact S.inside t ht ((hin t).symm.trans h)
  · rw [hq, hin, hw]
    exact S.owner t ht h
  · rw [hq] at h
    exact (hw t).2 (S.queue t ht h)
  · rw [hq]
    exact S.cont t ht ((hw t).1 h)

/-! ## The parts of a step -/

/-- The slot is in order after the first part of a step. -/
def SlotAfter (i : ℕ) (r : Kernel ⊕ Kernel) : Prop :=
  ∃ w q, Slot i w none (r.elim id id) q ∧ Rings (r.elim id id).links q

theorem inside_ret (hc : call.takes i) (log : List Event) (r : ℤ) :
    inside i t (log ++ [.ret t call r]) = true :=
  (inside_append log _).trans (if_pos ⟨rfl, hc⟩)

theorem insideStep_other {b : Bool} (ht : some t ≠ some u) (call : Call) (r : ℤ) :
    insideStep i t b (.ret u call r) = b ∧ insideStep i t b (.enter u call) = b :=
  ⟨if_neg fun h => ht (by rw [h.1]), if_neg fun h => ht (by rw [h.1])⟩

/-- The process returns to user mode and has the mutex. -/
theorem Slot.returns (S : Slot i (some (s.current c)) (some (s.current c)) s q) (hc : call.takes i)
    (hn : s.current c ∉ q (.mutex i)) (r : ℤ) :
    Slot i (some (s.current c)) none (leave c (s.addLog (.ret (s.current c) call r))) q := by
  have S1 := ((S.addLog (.ret (s.current c) call r)
    fun t ht b => (insideStep_other ht call r).1).setCont .user).setLock none
  exact S1.finish (fun _ => rfl) (fun _ => Or.inl (inside_ret hc s.log r)) (fun h => absurd h hn)
    fun h => absurd h (not_waits_setCont (by simp))

/-- The process leaves the mutex to others. -/
theorem Slot.part (S : Slot i w (some t) s q) (hw : w ≠ some t)
    (hin : Sched.inside i t s.log = false) (hn : t ∉ q (.mutex i)) {k : Cont}
    (hk : ∀ call r, k = .inCall call (.ret r) → call.takes i = false) :
    Slot i w none (s.setCont t k) q := by
  refine (S.setCont k).finish (fun h => ?_) (fun h => absurd h hw) (fun h => absurd h hn)
    fun h => absurd h (not_waits_setCont hk)
  have h : Sched.inside i t s.log = true := h
  rw [hin] at h
  cases h

/-- **do_mutex_lock_acquire** of the slot. -/
theorem Slot.acquire (S : Slot i w none s q) (B : Busy c s q) (ht : ∃ j, s.current c = .pcb j)
    (hi : i < lockNum) (h0 : ¬ Waits i (s.current c) s) (hc : call.takes i) {r : Kernel ⊕ Kernel}
    (hs : (doMutexLockAcquire c i s).bind (following c call) = some r) : SlotAfter i r := by
  have hr : (s.pcb (s.current c)).status = .running := B.running
  have hn : ∀ h, s.current c ∉ q h := B.mid.notMem (by simp [hr]) (by simp [hr])
  cases hl : (s.mlocks i).lock with
  | locked => rw [doMutexLockAcquire_spin hi hl] at hs; cases hs
  | unlocked =>
  cases w with
  | none =>
    rw [doMutexLockAcquire_free hi hl (S.free rfl).1] at hs
    cases hs
    have S1 := (S.weaken (e := some (s.current c))).take ht (by rw [Kernel.cur, hr]; simp)
    exact ⟨_, q, Slot.returns (s := s.setMutex i
      { s.mlocks i with status := .locked, pid := (s.cur c).pid }) S1 hc (hn _) 0, B.mid.rings⟩
  | some u =>
    rw [doMutexLockAcquire_held hi hl (S.held u rfl).1] at hs
    cases hs
    have S1 := (S.weaken (e := some (s.current c))).wait (by simp) B.alive
    have M1 := (B.block (P := fun _ => True) ht (h := .mutex i) ⟨by simp, by simp, by simp⟩ trivial).mid
      B.mid
    have hcur : (doBlock (s.current c) (.mutex i) s).current = s.current := by
      rw [doBlock_eq B.alive]; rfl
    have hlog : Sched.inside i (s.current c) (doBlock (s.current c) (.mutex i) s).log =
        Sched.inside i (s.current c) s.log := by
      rw [doBlock_eq B.alive]
      exact inside_append s.log [.block _ _]
    have hw : Waits i (s.current c)
        ((doBlock (s.current c) (.mutex i) s).setCont (s.current c) (.inCall call (.ret 0))) :=
      ⟨call, 0, hc, Function.update_self ..⟩
    have hm : s.current c ∈ push q (.mutex i) (s.current c) (.mutex i) := mem_push.2 (Or.inr ⟨rfl, rfl⟩)
    refine ⟨some u, push q (.mutex i) (s.current c), ?_, M1.rings⟩
    show Slot i (some u) none ((doBlock (s.current c) (.mutex i) s).setCont
      ((doBlock (s.current c) (.mutex i) s).current c) (.inCall call (.ret 0))) _
    rw [hcur]
    refine (S1.setCont _).finish (fun h => S.inside _ (by simp) (hlog.symm.trans h)) (fun h => ?_)
      (fun _ => hw) fun _ => Or.inl hm
    exact Or.inl (hlog.trans ((S.owner _ (by simp) h).resolve_right fun h1 => h0 h1.1))

/-- A process starts a call that gives the mutex up. -/
theorem Slot.give (S : Slot i w none s q) (c : ℕ) (hc : call.gives i) :
    Slot i w (some (s.current c)) (entered c call s) q ∧
      Sched.inside i (s.current c) (entered c call s).log = false := by
  refine ⟨(S.weaken.setLock (some c)).addLog (.enter (s.current c) call)
    fun t ht b => (insideStep_other ht call 0).2, ?_⟩
  exact (inside_append s.log [.enter (s.current c) call]).trans (if_pos ⟨rfl, hc⟩)

/-- **do_mutex_lock_release** of the slot. -/
theorem Slot.release_part (S : Slot i w none s q) (G : Good none s q)
    (ht : ∃ j, s.current c = .pcb j) (hi : i < lockNum)
    (hs : doMutexLockRelease c i (entered c (.mutexRelease i) s) = some s1) (r : ℤ) :
    SlotAfter i (.inl (leave c (s1.addLog (.ret (s1.current c) (.mutexRelease i) r)))) := by
  obtain ⟨S0, hin⟩ := S.give c (show (Call.mutexRelease i).gives i by simp [Call.gives])
  have hr : (s.pcb (s.current c)).status = .running := G.mid.running (by simp)
  have hn : s.current c ∉ q (.mutex i) := G.mid.notMem (by simp [hr]) (by simp [hr]) _
  have hx : ((entered c (.mutexRelease i) s).cur c).status ≠ .exited := by
    show (s.pcb (s.current c)).status ≠ .exited
    rw [hr]
    simp
  obtain ⟨w', q', S1, hw, M1, R⟩ :=
    Slot.release (s := entered c (.mutexRelease i) s) S0 hi (G.enter (c := c)).weaken ht hx hn hs
  have hcur : s1.current c = s.current c := congrFun R.current c
  refine ⟨w', q', ?_, M1.rings⟩
  show Slot i w' none (leave c (s1.addLog (.ret (s1.current c) (.mutexRelease i) r))) q'
  rw [hcur]
  have S2 := S1.addLog (.ret (s.current c) (.mutexRelease i) r)
    fun t ht b => (insideStep_other ht _ r).1
  have hin1 : Sched.inside i (s.current c) (s1.log ++ [.ret (s.current c) (.mutexRelease i) r]) = false :=
    (inside_append s1.log _).trans ((if_neg (by simp [Call.takes])).trans ((R.inside _).trans hin))
  have S3 := (S2.part hw hin1 R.mem (k := .user) (by simp)).setLock none
  have hl : leave c (s1.addLog (.ret (s.current c) (.mutexRelease i) r)) =
      { (s1.addLog (.ret (s.current c) (.mutexRelease i) r)).setCont (s.current c) .user with
        kernelLock := none } := by
    rw [leave, Kernel.addLog_current, hcur]
  rw [hl]
  exact S3

/-- **do_condition_wait** with the mutex. -/
theorem Slot.wait_part (S : Slot i w none s q) (G : Good none s q) (ht : ∃ j, s.current c = .pcb j)
    (hi : i < lockNum) (hk : (s.cur c).killed = false) {k : ℕ} (hkn : k < conditionNum)
    {r : Kernel ⊕ Kernel}
    (hs : (doConditionWait c k i (entered c (.condWait k i) s)).bind
      (following c (.condWait k i)) = some r) : SlotAfter i r := by
  obtain ⟨S0, hin⟩ := S.give c (show (Call.condWait k i).gives i by simp [Call.gives, hkn])
  have hr : (s.pcb (s.current c)).status = .running := G.mid.running (by simp)
  have hn : ∀ h, s.current c ∉ q h := G.mid.notMem (by simp [hr]) (by simp [hr])
  have G0 : Good none (entered c (.condWait k i) s) q := G.enter
  have B : Busy c (entered c (.condWait k i) s) q := G0.busy hk
  have ht0 : ∃ j, (entered c (.condWait k i) s).current c = .pcb j := ht
  have hcur0 : (entered c (.condWait k i) s).current c = s.current c := rfl
  rw [← hcur0] at S0 hin hn
  generalize entered c (.condWait k i) s = s0 at S0 hin hn G0 B ht0 hs
  cases hl : (s0.conditions k).lock with
  | locked => rw [doConditionWait_spin hkn (index_in hi) hl] at hs; cases hs
  | unlocked =>
    rw [doConditionWait_eq hkn (index_in hi) hl] at hs
    obtain ⟨⟨o, s2⟩, h2, h3⟩ := Option.bind_eq_some_iff.1 hs
    obtain ⟨s3, h4, h5⟩ := Option.map_eq_some_iff.1 h2
    cases h5
    cases h3
    have hb := B.block (P := fun o => o = .cond k) ht0 (h := .cond k) ⟨by simp, by simp, by simp⟩ rfl
    have G1 : Good (some c) _ (push q (.cond k) (s0.current c)) := hb.good G0.weaken
    have S1 := hb.slot B.mid (by simp) (by simp) S0
    have hcur1 : (doBlock (s0.current c) (.cond k) s0).current = s0.current := hb.current
    have hin1 : Sched.inside i (s0.current c) (doBlock (s0.current c) (.cond k) s0).log = false := by
      rw [doBlock_eq B.alive]
      exact (inside_append s0.log [.block _ _]).trans hin
    have hn1 : s0.current c ∉ push q (.cond k) (s0.current c) (.mutex i) := by
      rw [push_of_ne (by simp)]
      exact hn _
    have hx1 : ((doBlock (s0.current c) (.cond k) s0).pcb (s0.current c)).status ≠ .exited := by
      rw [G1.mid.blocked.1 ⟨.cond k, by simp, mem_push.2 (Or.inr ⟨rfl, rfl⟩)⟩]
      simp
    generalize doBlock (s0.current c) (.cond k) s0 = s1 at *
    generalize push q (.cond k) (s0.current c) = q1 at *
    rw [← hcur1] at S1 hin1 hn1 ht0 hx1
    obtain ⟨w', q', S2, hw, M2, R⟩ := S1.release hi G1 ht0 hx1 hn1 h4
    have hcur2 : s2.current c = s1.current c := congrFun R.current c
    refine ⟨w', q', ?_, M2.rings⟩
    show Slot i w' none (s2.setCont (s2.current c) (.inCall (.condWait k i) (.relock i))) q'
    rw [hcur2]
    exact S2.part hw ((R.inside _).trans hin1) R.mem (by simp)

/-- The process that has been woken returns with the mutex. -/
theorem Slot.go_part (S : Slot i w none s q) (G : Good none s q) {call : Call} {r : ℤ}
    (hc : call.takes i) (hcont : s.cont (s.current c) = .inCall call (.ret r)) :
    SlotAfter i (.inl (leave c (s.addLog (.ret (s.current c) call r)))) := by
  have hr : (s.pcb (s.current c)).status = .running := G.mid.running (by simp)
  have hn : s.current c ∉ q (.mutex i) := G.mid.notMem (by simp [hr]) (by simp [hr]) _
  have hw := (S.cont _ (by simp) ⟨call, r, hc, hcont⟩).resolve_left hn
  subst hw
  exact ⟨_, q, S.weaken.returns hc hn r, G.mid.rings⟩

/-- **free_lock**: the process gives up the slot if it owns it. -/
theorem Slot.freeLock (S : Slot i w (some (s.current c)) s q) (G : Good (some c) s q)
    (hr : (s.cur c).status = .running) (ht : ∃ j, s.current c = .pcb j) (hi : i < lockNum)
    (hs : Sched.freeLock c (s.cur c).pid s = some s') :
    ∃ w' q', Slot i w' (some (s.current c)) s' q' ∧ w' ≠ some (s.current c) ∧ Good (some c) s' q' ∧
      s'.cur c = s.cur c ∧ s'.current = s.current := by
  have hI := loopM_inv (P := fun j s' => ∃ w' q', Slot i w' (some (s.current c)) s' q' ∧
    Good (some c) s' q' ∧ s'.cur c = s.cur c ∧ s'.current = s.current ∧
    (i < j → w' ≠ some (s.current c))) (fun j s1 s2 _ _ hj hf => ?_) ⟨w, q, S, G, rfl, rfl, by simp⟩ hs
  · obtain ⟨w', q', S', G', h1, h2, h3⟩ := hI
    exact ⟨w', q', S', h3 (by omega), G', h1, h2⟩
  obtain ⟨w1, q1, S1, G1, hcur, hc, h3⟩ := hj
  have hr1 : (s1.pcb (s1.current c)).status = .running := by
    have : (s1.cur c).status = .running := by rw [hcur]; exact hr
    exact this
  have hn : ∀ h, s1.current c ∉ q1 h := G1.mid.notMem (by simp [hr1]) (by simp [hr1])
  rw [← hc] at S1 h3 ⊢
  split_ifs at hf with hpid
  · obtain ⟨q2, hm, hpcb⟩ := release_micros (P := At .mutex j) G1.mid (fun _ h => h) hf
    have hc2 : s2.current = s1.current := hm.current
    have G2 := hm.good G1
    have hcur2 : s2.cur c = s.cur c := by
      rw [Kernel.cur, hc2, hpcb _ (hn _)]
      exact hcur
    by_cases e : j = i
    · subst e
      have hx1 : (s1.cur c).status ≠ .exited := by
        rw [Kernel.cur, hr1]
        simp
      obtain ⟨w', q', S2, hw', M2, -⟩ := S1.release hi G1 (by rwa [hc]) hx1 (hn _) hf
      obtain rfl := M2.rings.unique G2.mid.rings
      exact ⟨w', q', S2, G2, hcur2, hc2, fun _ => hw'⟩
    · have hP : ¬ At .mutex j (.mutex i) := by
        rintro ⟨k, hk, he⟩
        cases he
        exact e (by exact_mod_cast hk)
      have hP' : ¬ At .mutex j .exit := by
        rintro ⟨k, -, he⟩
        cases he
      refine ⟨w1, q2, hm.slot G1.mid hP (fun h => absurd h hP') S1, G2, hcur2, hc2, fun h => ?_⟩
      exact h3 (by omega)
  · cases hf
    refine ⟨w1, q1, S1, G1, hcur, rfl, fun h => ?_⟩
    by_cases e : j = i
    · subst e
      rintro rfl
      have := (S1.held _ rfl).2.1
      exact hpid (this.trans (congrArg Pcb.pid hcur))
    · exact h3 (by omega)

/-- **do_exit**. -/
theorem Slot.ending (S : Slot i w (some (s.current c)) s q) (G : Good (some c) s q)
    (hr : (s.cur c).status = .running) (ht : ∃ j, s.current c = .pcb j) (hi : i < lockNum)
    {r : Kernel ⊕ Kernel} (hs : Sched.ending c s = some r) : SlotAfter i r := by
  obtain ⟨s2, h2, rfl⟩ := Option.map_eq_some_iff.1 hs
  rw [exitCurrent_eq] at h2
  obtain ⟨s1, h1, h2⟩ := Option.bind_eq_some_iff.1 h2
  obtain ⟨w1, q1, S1, hw, G1, hcur, hc⟩ := S.freeLock G hr ht hi h1
  have hr1 : (s1.cur c).status = .running := by rw [hcur]; exact hr
  rw [← hc] at S1 hw ht
  obtain ⟨q2, hm, -, -⟩ := exitRest_micros G1.mid hr1 ht h2
  have S2 := hm.slot G1.mid (by simp) (fun _ => ⟨hw, rfl⟩) S1
  have hc2 : s2.current = s1.current := hm.current
  -- the process has been marked as exited
  have hin : Sched.inside i (s1.current c) s2.log = false := by
    obtain ⟨m, l, rfl, -, -⟩ := exitRest_eq G1.mid hr1 ht h2
    refine (inside_append _ _).trans ((inside_wake _ _).trans ?_)
    exact (inside_append _ [.exit (s1.current c)]).trans (if_pos rfl)
  have hn : s1.current c ∉ q2 (.mutex i) := by
    have hr1 : (s1.pcb (s1.current c)).status = .running := hr1
    have hq : q2 (.mutex i) = q1 (.mutex i) := hm.queue (by simp [Head.obj]) (by simp)
    rw [hq]
    exact G1.mid.notMem (by simp [hr1]) (by simp [hr1]) _
  refine ⟨w1, q2, ?_, (hm.mid G1.mid).rings⟩
  show Slot i w1 none (s2.setCont (s2.current c) (.inCall .exit (.ret 0))) q2
  rw [hc2]
  refine S2.part hw hin hn fun call r h => ?_
  cases h
  rfl

theorem Micros.waits (hm : Micros c P (s, q) (s', q')) (M : Mid (some c) s q) (h : Waits i t s') :
    Waits i t s :=
  (hm.inv (I := fun s' _ => Waits i t s' → Waits i t s)
    (fun _ _ _ _ _ _ ih M hm M' h => ih (hm.waits M M' h)) M fun h => h).1 h

/-- The process returns from a call that does not take the mutex. -/
theorem Slot.return_other (S : Slot i w none s q) (h0 : ¬ Waits i (s.current c) s)
    (h1 : call.takes i = false) (v : ℤ) :
    Slot i w none (leave c (s.addLog (.ret (s.current c) call v))) q := by
  have S1 := S.addLog (.ret (s.current c) call v)
    fun t _ b => if_neg fun h => by rw [h1] at h; cases h.2
  exact (S1.move (t := s.current c) (k := .user) h0 (by simp)).setLock none

/-- **A part of a call that is about other things.** -/
theorem Slot.other_part (S : Slot i w none s q) (G : Good (some c) s q) {o : Out}
    (hp : Part c call s q o s1) (hi : i < lockNum) (h0 : ¬ Waits i (s.current c) s)
    (h1 : call.takes i = false) (h2 : ¬ call.about (.mutex i)) (h3 : ¬ call.about .exit)
    (h4 : o = .exit → ∃ j, s.current c = .pcb j) {r : Kernel ⊕ Kernel}
    (hs : following c call (o, s1) = some r) : SlotAfter i r := by
  obtain ⟨q1, hmi, hst⟩ := hp.ends
  have S1 := hmi.slot G.mid h2 (fun h => absurd h h3) S
  have G1 := hmi.good G
  have hc : s1.current = s.current := hmi.current
  have h0 : ¬ Waits i (s1.current c) s1 := fun h => h0 (by rw [← hc]; exact hmi.waits G.mid h)
  cases o with
  | ret v =>
    cases hs
    exact ⟨w, q1, S1.return_other h0 h1 v, G1.mid.rings⟩
  | sched point =>
    cases hs
    exact ⟨w, q1, S1.move h0 (fun call' r h => by cases h; exact h1), G1.mid.rings⟩
  | exit =>
    have hr : (s1.cur c).status = .running := hst.resolve_right fun h => by simp at h
    exact S1.weaken.ending G1 hr (by rw [hc]; exact h4 rfl) hi hs

/-! ## Runs -/

theorem about_mutex (h1 : call.takes i = false) (h2 : call.gives i = false) (h3 : call ≠ .exit)
    (h4 : ∀ cond m, call = .condWait cond m → 0 ≤ cond ∧ cond < conditionNum) :
    ¬ call.about (.mutex i) ∧ ¬ call.about .exit := by
  cases call with
  | condWait cond m =>
    obtain ⟨h5, h6⟩ := h4 cond m rfl
    have hne : m ≠ i := fun e => by simp [Call.takes, e, h5, h6] at h1
    simpa [Call.about, At] using hne
  | _ => simp_all [Call.about, At, Call.takes, Call.gives]

/-- **A call keeps the slot in order.** -/
theorem enter_slot (G : Good none s q) (A : Alive s) (S : Slot i w none s q) (hi : i < lockNum)
    {env : Env} (he : Enabled s ⟨c, env, .enter call⟩) (hP : NoKill s ⟨c, env, .enter call⟩)
    {r : Kernel ⊕ Kernel}
    (hs : (syscall c env (entered c call s) call).bind (following c call) = some r) : SlotAfter i r := by
  obtain ⟨-, hu, hm⟩ := he
  have hk := A.cur G c
  have G0 : Good none (entered c call s) q := G.enter
  have B0 : Busy c (entered c call s) q := G0.busy hk
  have hw0 : ¬ Waits i (s.current c) (entered c call s) := by
    rintro ⟨call', r', -, h⟩
    have h : s.cont (s.current c) = .inCall call' (.ret r') := h
    rw [hu] at h
    cases h
  by_cases hg : call.gives i
  · cases call with
    | mutexRelease idx =>
      obtain rfl : idx = i := by simpa [Call.gives] using hg
      have ht := Call.madeBy_pcb hm (by simp) (by simp)
      obtain ⟨⟨o, s1⟩, h1, h2⟩ := Option.bind_eq_some_iff.1 hs
      obtain ⟨s2, h3, h4⟩ := Option.map_eq_some_iff.1 h1
      cases h4
      cases h2
      exact S.release_part G ht hi h3 0
    | condWait cond m =>
      obtain ⟨rfl, h1, h2⟩ : m = i ∧ 0 ≤ cond ∧ cond < conditionNum := by simpa [Call.gives] using hg
      obtain ⟨k, rfl⟩ := Int.eq_ofNat_of_zero_le h1
      exact S.wait_part G (Call.madeBy_pcb hm (by simp) (by simp)) hi hk (by omega) hs
    | _ => cases hg
  have hg : call.gives i = false := by simpa using hg
  have S0 : Slot i w none (entered c call s) q :=
    (S.setLock (some c)).addLog (.enter (s.current c) call)
      fun t _ b => if_neg fun h => by rw [hg] at h; cases h.2
  by_cases hta : call.takes i
  · cases call with
    | mutexAcquire idx =>
      obtain rfl : idx = i := by simpa [Call.takes] using hta
      exact S0.acquire B0 (Call.madeBy_pcb hm (by simp) (by simp)) hi hw0 hta hs
    | condWait cond m =>
      have hg : Call.takes i (.condWait cond m) = false := hg
      rw [hg] at hta
      cases hta
    | _ => cases hta
  have hta : call.takes i = false := by simpa using hta
  by_cases hexit : call = .exit
  · subst hexit
    exact S0.weaken.ending G0.weaken B0.running (Call.madeBy_pcb hm (by simp) (by simp)) hi hs
  by_cases hcond : ∃ cond m, call = .condWait cond m ∧ (cond < 0 ∨ conditionNum ≤ cond)
  · obtain ⟨cond, m, rfl, hcond⟩ := hcond
    have hs : (doConditionWait c cond m (entered c (.condWait cond m) s)).bind
      (following c (.condWait cond m)) = some r := hs
    rw [doConditionWait, if_pos hcond] at hs
    cases hs
    exact ⟨w, q, S0.return_other hw0 hta 0, G.mid.rings⟩
  obtain ⟨h2, h3⟩ := about_mutex hta hg hexit fun cond m e => by
    by_contra h
    exact hcond ⟨cond, m, e, by omega⟩
  obtain ⟨⟨o, s1⟩, h4, h5⟩ := Option.bind_eq_some_iff.1 hs
  have hex : ∀ name, call = .exec name → (doExec c name (entered c call s)).1 ≠ 0 := by
    rintro name rfl
    rw [doExec_entered]
    exact hP.2 name rfl
  exact S0.other_part G0.weaken (syscall_part B0 hm G0.processId hex h4) hi hw0 hta h2 h3
    (by rintro rfl; exact syscall_exit hm h4) h5

/-- **Going on after a switch keeps the slot in order.** -/
theorem go_slot (G : Good none s q) (A : Alive s) (S : Slot i w none s q) (hi : i < lockNum) {env : Env}
    {point : Point} (hc : s.cont (s.current c) = .inCall call point) {r : Kernel ⊕ Kernel}
    (hs : (resume c env s call point).bind (following c call) = some r) : SlotAfter i r := by
  obtain ⟨hm, hf⟩ := G.cont _ call point hc
  have B : Busy c s q := G.busy (A.cur G c)
  have hpart : ∀ {o s1}, resume c env s call point = some (o, s1) → Part c call s q o s1 :=
    fun h => resume_part B hm hf h
  have hw0 : (∀ v, point ≠ .ret v) → ¬ Waits i (s.current c) s := by
    rintro hne ⟨call', v, -, h⟩
    rw [hc] at h
    cases h
    exact hne v rfl
  have hother : (∀ v, point ≠ .ret v) → call.takes i = false → ¬ call.about (.mutex i) →
      ¬ call.about .exit → SlotAfter i r := by
    intro hne h1 h2 h3
    obtain ⟨⟨o, s1⟩, h4, h5⟩ := Option.bind_eq_some_iff.1 hs
    exact S.other_part G.weaken (hpart h4) hi (hw0 hne) h1 h2 h3
      (by rintro rfl; exact resume_exit hm hf h4) h5
  cases point with
  | ret v =>
    cases hs
    by_cases hta : call.takes i
    · exact S.go_part G hta hc
    · have hta : call.takes i = false := by simpa using hta
      refine ⟨w, q, S.return_other ?_ hta v, G.mid.rings⟩
      rintro ⟨call', v', h1, h2⟩
      rw [hc] at h2
      cases h2
      rw [hta] at h1
      cases h1
  | relock mutex =>
    cases call with
    | condWait cond m =>
      obtain ⟨rfl, h1, h2⟩ := hf
      by_cases e : mutex = i
      · subst e
        exact S.acquire B (Call.madeBy_pcb hm (by simp) (by simp)) hi (hw0 (by simp))
          (by simp [Call.takes, h1, h2]) hs
      · exact hother (by simp) (by simp [Call.takes, e]) (by simp [Call.about, At]; omega)
          (by simp [Call.about, At])
    | _ => exact hf.elim
  | send sent pin =>
    cases call <;> try exact hf.elim
    exact hother (by simp) rfl (by simp [Call.about, At]) (by simp [Call.about, At])
  | recv read pin =>
    cases call <;> try exact hf.elim
    exact hother (by simp) rfl (by simp [Call.about, At]) (by simp [Call.about, At])
  | give done =>
    cases call <;> try exact hf.elim
    exact hother (by simp) rfl (by simp [Call.about, At]) (by simp [Call.about, At])
  | take done =>
    cases call <;> try exact hf.elim
    exact hother (by simp) rfl (by simp [Call.about, At]) (by simp [Call.about, At])

theorem segment_slot (G : Good none s q) (A : Alive s) (S : Slot i w none s q) (hi : i < lockNum)
    (he : Enabled s a) (hP : NoKill s a) {r : Kernel ⊕ Kernel} (hs : segment s a = some r) :
    SlotAfter i r := by
  obtain ⟨c, env, move⟩ := a
  have hk := A.cur G c
  cases move with
  | enter call =>
    simp only [segment] at hs
    rw [if_neg (by rw [show ((entered c call s).cur c).killed = false from hk]; simp)] at hs
    exact enter_slot G A S hi he hP hs
  | go =>
    simp only [segment] at hs
    cases hc : s.cont (s.current c) with
    | user => rw [hc] at hs; cases hs
    | fresh =>
      rw [hc] at hs
      cases hs
      refine ⟨w, q, (S.move (t := s.current c) (k := .user) ?_ (by simp)).setLock none, G.mid.rings⟩
      rintro ⟨call, v, -, h⟩
      rw [hc] at h
      cases h
    | inCall call point =>
      rw [hc] at hs
      dsimp only at hs
      rw [if_neg (by rw [hk]; simp)] at hs
      exact go_slot G A S hi hc hs

/-- The process has been handed mutex `i`: it is in the call that waits for it and has been woken. -/
def Handed (i : ℕ) (t : Task) (s : Kernel) : Prop := Waits i t s ∧ t ∉ waiting (.mutex i) s.log

/-- What is said about mutex slot `i`. -/
structure SlotOk (i : ℕ) (s : Kernel) : Prop where
  one : ∀ t u, inside i t s.log → inside i u s.log → t = u
  status : (s.mlocks i).status = .locked ↔
    ∃ t, (s.mlocks i).pid = (s.pcb t).pid ∧ (inside i t s.log ∨ Handed i t s)
  order : Fifo (.mutex i) s.log
  empty : (s.mlocks i).status = .unlocked → isEmptyQueue (.mutex i) s = true

theorem Slot.ok (S : Slot i w none s q) (G : Good none s q) : SlotOk i s := by
  have hl : waiting (.mutex i) s.log = q (.mutex i) := G.log _ (by simp) (by simp)
  refine ⟨fun t u ht hu => ?_, ⟨fun h => ?_, ?_⟩, G.fifo _ (by simp) (by simp), fun h => ?_⟩
  · have h1 := S.inside t (by simp) ht
    rw [S.inside u (by simp) hu] at h1
    exact (Option.some.inj h1).symm
  · cases w with
    | none =>
      rw [(S.free rfl).1] at h
      cases h
    | some t =>
      refine ⟨t, (S.held t rfl).2.1, (S.owner t (by simp) rfl).imp_right fun h => ⟨h.1, ?_⟩⟩
      rw [hl]
      exact h.2
  · rintro ⟨t, -, h⟩
    have hw : w = some t := by
      rcases h with h | h
      · exact S.inside t (by simp) h
      · refine (S.cont t (by simp) h.1).resolve_left ?_
        rw [← hl]
        exact h.2
    exact (S.held t hw).1
  · rw [G.mid.isEmptyQueue]
    cases w with
    | none =>
      rw [(S.free rfl).2.2]
      rfl
    | some t =>
      rw [(S.held t rfl).1] at h
      cases h

theorem Start.slot (h0 : Start s) (i : ℕ) : Slot i none none s fun _ => [] := by
  have hin : ∀ t, inside i t s.log = false := fun t => by rw [h0.log]; rfl
  have hw : ∀ t, ¬ Waits i t s := by
    rintro t ⟨call, r, -, h⟩
    rw [h0.cont] at h
    cases h
  refine ⟨fun _ => by rw [h0.mlocks]; exact ⟨rfl, rfl, rfl⟩, by simp,
    fun t _ h => ?_, by simp, by simp, fun t _ h => absurd h (hw t)⟩
  rw [hin] at h
  cases h

theorem run_slot {Ok : Kernel → Act → Prop} (hk : ∀ s a, Ok s a → NoKill s a) (h0 : Start s)
    (hi : i < lockNum) (hv : Run.Valid next (Steps Ok) s as) :
    ∃ w q, Good none (Run.run next s as) q ∧ Slot i w none (Run.run next s as) q := by
  obtain ⟨q, G, -, w, S⟩ := run_inv (J := fun s q => ∃ w, Slot i w none s q) hk
    (fun s q a r G A ⟨w, S⟩ he hP hs => by
      obtain ⟨w', q', S', hr⟩ := segment_slot G A S hi he (hk s a hP) hs
      exact ⟨q', hr, w', S'⟩)
    (fun _ _ _ _ _ _ W ⟨w, S⟩ => ⟨w, S.switch W⟩) h0 ⟨none, h0.slot i⟩ hv
  exact ⟨w, q, G, S⟩

/-- **The protocol of a mutex slot** in every run in which nobody is killed. Only the owner can release the
mutex: the call of another process leaves the slot as it is, with the spin lock held. -/
theorem run_slotOk (h0 : Start s) (hi : i < lockNum) (hv : Run.Valid next (Steps NoKill) s as) :
    SlotOk i (Run.run next s as) := by
  obtain ⟨w, q, G, S⟩ := run_slot (fun _ _ h => h) h0 hi hv
  exact S.ok G

/-- A mutex that is handed over. -/
theorem slotOk_handOver : SlotOk 0 (Run.run next boot (twoProcesses ++
    [calls 0 (.mutexAcquire 0), calls 1 (.mutexAcquire 0), resumes 1, calls 0 (.mutexRelease 0),
      calls 1 .timer, resumes 1])) :=
  run_slotOk start_boot (by decide) (by decide +kernel)

end RiscvKernel.Sched
