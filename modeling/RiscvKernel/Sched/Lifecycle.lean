import RiscvKernel.Sched.Segments

/-!
# Creating, ending and waiting as small steps

The calls of `proc.c` and `sched.c`, and with them: every part of a call is a sequence of small
steps.
-/

namespace RiscvKernel.Sched

open Lib Mm

variable {c now i : ℕ} {e : Env} {P : Obj → Prop} {o : Out} {s s' s1 : Kernel} {q q1 : Queues}
  {t : Task} {h : Head}

/-! ## Creating a process -/

theorem freeSlot_eq (hf : freeSlot s = some t) :
    ∃ i, t = .pcb i ∧ (s.pcb (.pcb i)).status = .exited := by
  obtain ⟨i, h1, rfl⟩ := Option.map_eq_some_iff.1 hf
  exact ⟨i, rfl, by simpa using List.find?_some h1⟩

/-- The pointers when process `t` is created. -/
def linked (t : Task) (s : Kernel) : Links Task Head :=
  Links.enqueue (.inl t) (.inr .ready) (Links.initQueue (.inr (.wait t)) (Links.initQueue (.inl t) s.links))

/-- A new process in a free slot goes to the ready queue. -/
theorem Busy.create (B : Busy c s q) {i : Fin taskMaxnum} {p : Pcb} {m : Memory}
    (he : (s.pcb (.pcb i)).status = .exited) (hs : p.status = .ready) (hp : p.pid ≠ 0) :
    Mid (some c) (created (.pcb i) p m (linked (.pcb i) s) s) (push q .ready (.pcb i)) := by
  have H := B.mid
  have hne : ∀ a, s.current a ≠ .pcb i := by
    intro a ha
    have hr : (s.pcb (s.current a)).status = .running := by
      by_cases e : a = c
      · rw [e]; exact B.running
      · exact H.running (by simpa using e)
    rw [ha, he] at hr
    cases hr
  have hnot : ∀ k, (.pcb i : Task) ∉ q k := H.notMem (by simp [he]) (by simp [he])
  have hw : q (.wait (.pcb i)) = [] := H.exited he fun a _ => (hne a).symm
  have hl : Rings (linked (.pcb i) s) (push q .ready (.pcb i)) := by
    have h1 := H.rings.initQueue_inl hnot
    rw [linked, h1.initQueue_inr hw]
    exact h1.enqueue hnot
  refine ⟨hl, fun {u} => ?_, fun {u} => ?_, fun k => ?_, fun j => ?_, fun {u} => ?_, fun {k} hv => ?_,
    H.inj, H.own, fun {a} ha => ?_⟩
  · rw [created_pcb, mem_push, H.ready]
    split_ifs with e
    · simp [e, hs]
    · simp [e]
  · rw [created_pcb]
    have hmem : ∀ k, k ≠ .ready → (u ∈ push q .ready (.pcb i) k ↔ u ∈ q k) := by
      intro k hk; rw [push_of_ne hk]
    simp only [and_congr_right_iff.2 (hmem _), H.blocked]
    split_ifs with e
    · simp [e, hs, he]
    · rfl
  · rw [created_pcb, if_neg (by simp)]
    exact H.idle k
  · rw [created_pcb]
    split_ifs with e
    · exact fun _ => hp
    · exact H.pid j
  · rw [created_pcb]
    split_ifs with e
    · rw [hs]
      intro h
      cases h
    · intro h1 h2
      rw [push_of_ne (by simp)]
      exact H.exited h1 h2
  · rw [push_of_ne (by simp)]
    exact H.pipe hv
  · have hc : (created (.pcb i) p m (linked (.pcb i) s) s).current = s.current := rfl
    rw [hc, created_pcb, if_neg (hne a)]
    exact H.running ha

theorem Busy.ends_create (B : Busy c s q) {i : Fin taskMaxnum} {p : Pcb} {m : Memory}
    (he : (s.pcb (.pcb i)).status = .exited) (hs : p.status = .ready) (hp : p.pid = s.processId)
    (hk : p.killed = false) (h0 : 0 < s.processId) (hP : P .proc) :
    Ends c P s q o (created (.pcb i) p m (linked (.pcb i) s) s) := by
  refine ⟨_, .single hP (.create i p m _ he hs hp hk) (B.create he hs (by omega)), Or.inl ?_⟩
  show ((created (.pcb i) p m (linked (.pcb i) s) s).pcb (s.current c)).status = .running
  rw [created_pcb, if_neg]
  · exact B.running
  · intro e
    have hr : (s.pcb (s.current c)).status = .running := B.running
    rw [e, he] at hr
    cases hr

theorem ends_exec (B : Busy c s q) (h0 : 0 < s.processId) {name : CStr}
    (hok : (doExec c name s).1 ≠ 0) :
    Ends c (Call.exec name).about s q o (doExec c name s).2 := by
  unfold doExec at hok ⊢
  split at hok
  · exact absurd rfl hok
  · rename_i t ht
    obtain ⟨i, rfl, he⟩ := freeSlot_eq ht
    dsimp only at hok ⊢
    split_ifs at hok ⊢ with hent
    · exact absurd rfl hok
    · exact B.ends_create he rfl rfl rfl h0 rfl

theorem ends_threadCreate (B : Busy c s q) (h0 : 0 < s.processId) :
    Ends c Call.threadCreate.about s q o (doThreadCreate c s).2 := by
  unfold doThreadCreate
  split
  · exact .refl B
  · rename_i t ht
    obtain ⟨i, rfl, he⟩ := freeSlot_eq ht
    exact B.ends_create he rfl rfl rfl h0 rfl

/-! ## Waiting, sleeping, killing -/

theorem getPcb_eq {pid : ℤ} (hg : getPcb pid s = some t) :
    ∃ i, t = .pcb i ∧ (s.pcb (.pcb i)).pid = pid ∧ (s.pcb (.pcb i)).status ≠ .exited ∧
      (s.pcb (.pcb i)).killed = false := by
  obtain ⟨i, h1, rfl⟩ := Option.map_eq_some_iff.1 hg
  have h2 := List.find?_some h1
  simp only [decide_eq_true_eq, Bool.not_eq_true'] at h2
  exact ⟨i, rfl, h2⟩

theorem ends_waitpid (B : Busy c s q) (ht : ∃ i, s.current c = .pcb i) (pid : ℤ) :
    Ends c (Call.waitpid pid).about s q (doWaitpid c pid s).1 (doWaitpid c pid s).2 := by
  unfold doWaitpid
  split
  · exact .refl B
  · rename_i u hu
    obtain ⟨i, rfl, -, h2, -⟩ := getPcb_eq hu
    have ho : Open s (.wait (.pcb i)) := ⟨by simp, fun e => by cases e; exact h2, by simp⟩
    exact B.ends_block (P := (Call.waitpid pid).about) ht ho rfl _

theorem ends_threadJoin (B : Busy c s q) (ht : ∃ i, s.current c = .pcb i) (pid : ℤ) :
    Ends c (Call.threadJoin pid).about s q (doThreadJoin c pid s).1 (doThreadJoin c pid s).2 := by
  unfold doThreadJoin
  split
  · exact .refl B
  · rename_i u hu
    obtain ⟨i, rfl, -, h2, -⟩ := getPcb_eq hu
    have ho : Open s (.wait (.pcb i)) := ⟨by simp, fun e => by cases e; exact h2, by simp⟩
    split_ifs
    · exact .refl B
    · exact B.ends_block (P := (Call.threadJoin pid).about) ht ho rfl _

/-- A change of a PCB that keeps the status and the pid. -/
theorem Mid.setPcb {x : Option ℕ} {p : Pcb} (H : Mid x s q) (hs : p.status = (s.pcb t).status)
    (hp : p.pid = (s.pcb t).pid) : Mid x (s.setPcb t p) q := by
  have hst : ∀ u, ((s.setPcb t p).pcb u).status = (s.pcb u).status := by
    intro u
    rw [setPcb_apply]
    split_ifs with e
    · rw [hs, e]
    · rfl
  have hpid : ∀ u, ((s.setPcb t p).pcb u).pid = (s.pcb u).pid := by
    intro u
    rw [setPcb_apply]
    split_ifs with e
    · rw [hp, e]
    · rfl
  refine ⟨H.rings, fun {u} => ?_, fun {u} => ?_, fun k => ?_, fun j => ?_, fun {u} => ?_, H.pipe,
    H.inj, H.own, fun {a} ha => ?_⟩
  · rw [hst]; exact H.ready
  · rw [hst]; exact H.blocked
  · rw [hst, hpid]; exact H.idle k
  · rw [hst, hpid]; exact H.pid j
  · rw [hst]; exact H.exited
  · rw [hst]; exact H.running ha

theorem Busy.setWakeup (B : Busy c s q) (n : ℕ) :
    Busy c (s.setPcb (s.current c) { s.cur c with wakeupTime := n }) q := by
  have hp : (s.setPcb (s.current c) { s.cur c with wakeupTime := n }).cur c =
      { s.cur c with wakeupTime := n } := by
    rw [Kernel.cur, Kernel.setPcb_current, setPcb_apply, if_pos rfl]
  exact ⟨B.mid.setPcb rfl rfl, by rw [hp]; exact B.running, by rw [hp]; exact B.alive⟩

theorem ends_sleep (B : Busy c s q) (ht : ∃ i, s.current c = .pcb i) (time : ℕ) :
    Ends c (Call.sleep time).about s q (doSleep c now time s).1 (doSleep c now time s).2 := by
  have B' := B.setWakeup ((now + time) % 2 ^ 64)
  refine .of_micros (.single rfl (.sleepUntil _) B'.mid) ?_
  exact B'.ends_block (P := (Call.sleep time).about) (h := .sleep) ht ⟨by simp, by simp, by simp⟩ rfl _

theorem ends_kill (B : Busy c s q) (pid : ℤ) :
    Ends c (Call.kill pid).about s q o (doKill c pid s).2 := by
  rw [doKill]
  by_cases h0 : pid = 0
  · rw [if_pos h0]
    exact .refl B
  by_cases hself : pid = (s.cur c).pid
  · rw [if_neg h0, if_pos hself]
    exact .refl B
  rw [if_neg h0, if_neg hself]
  split
  · exact .refl B
  · rename_i u hu
    obtain ⟨i, rfl, hpid, -, -⟩ := getPcb_eq hu
    split_ifs
    · exact .refl B
    · have hne : .pcb i ≠ s.current c := by
        intro e
        rw [e] at hpid
        exact hself hpid.symm
      refine .single B rfl (.kill i hne) (B.mid.setPcb rfl rfl) ?_
      show ((s.setPcb (.pcb i) _).pcb (s.current c)).status = _
      rw [setPcb_apply, if_neg (Ne.symm hne)]
      rfl

/-! ## Ending a process -/

/-- **free_lock**: the mutexes of the process are released one after the other. -/
theorem freeLock_micros (H : Mid (some c) s q) (hr : (s.cur c).status = .running) {pid : ℤ}
    (hs : freeLock c pid s = some s') :
    ∃ q', Micros c Call.exit.about (s, q) (s', q') ∧ s'.cur c = s.cur c := by
  refine loopM_inv (P := fun _ s' => ∃ q', Micros c Call.exit.about (s, q) (s', q') ∧ s'.cur c = s.cur c)
    (fun j s1 s2 _ _ hj hf => ?_) ⟨q, .refl, rfl⟩ hs
  obtain ⟨q1, h1, h2⟩ := hj
  split_ifs at hf
  · obtain ⟨q2, h3, h4⟩ := release_micros (P := Call.exit.about) (h1.mid H)
      (fun _ ⟨k, _, hk⟩ => Or.inr (Or.inr ⟨k, hk⟩)) hf
    refine ⟨q2, h1.trans h3, ?_⟩
    have hcur : s1.current c = s2.current c := congrFun h3.current.symm c
    have hn : s1.current c ∉ q1 (.mutex ((j : ℕ) : ℤ).toNat) := by
      have hr : (s1.cur c).status = .running := by rw [h2]; exact hr
      exact Mid.notMem (h1.mid H) (by rw [← Kernel.cur, hr]; simp) (by rw [← Kernel.cur, hr]; simp) _
    rw [Kernel.cur, ← hcur, h4 _ hn]
    exact h2
  · cases hf
    exact ⟨q1, h1, h2⟩

theorem Mid.isInQueue_running (H : Mid (some c) s q) (hr : (s.cur c).status = .running) (h : Head) :
    Sched.isInQueue (s.current c) h s = some false := by
  have hr : (s.pcb (s.current c)).status = .running := hr
  rw [H.isInQueue]
  simpa using H.notMem (by simp [hr]) (by simp [hr]) h

/-- **free_barrier** finds the process in no queue. -/
theorem freeBarrier_eq (H : Mid (some c) s q) (hr : (s.cur c).status = .running)
    (hs : freeBarrier c s = some s') : s' = s := by
  refine loopM_inv (P := fun _ s' => s' = s) (fun j s1 s2 _ _ hj hf => ?_) rfl hs
  subst hj
  obtain ⟨s2', h1, hf⟩ := Option.bind_eq_some_iff.1 hf
  unfold acquireBarrierSpin at h1
  split_ifs at h1 with hl
  cases h1
  have hl : (s1.barriers j).lock = .unlocked := by
    cases h : (s1.barriers j).lock with
    | locked => exact absurd h hl
    | unlocked => rfl
  have hk : kickBarrier c j (s1.setBarrier j { s1.barriers j with lock := .locked }) =
      some (s1.setBarrier j { s1.barriers j with lock := .locked }) := by
    rw [kickBarrier]
    split_ifs
    · show (isInQueue (s1.current c) (.barrier j) s1).map _ = _
      rw [H.isInQueue_running hr]
      rfl
    · rfl
  rw [hk] at hf
  cases hf
  simp [releaseBarrierSpin, Kernel.setBarrier, ← hl]

/-- **free_mbox** finds the process in no queue. -/
theorem freeMbox_eq (H : Mid (some c) s q) (hr : (s.cur c).status = .running)
    (hs : freeMbox c s = some s') : s' = s := by
  refine loopM_inv (P := fun _ s' => s' = s) (fun j s1 s2 _ _ hj hf => ?_) rfl hs
  subst hj
  obtain ⟨s2', h1, hf⟩ := Option.bind_eq_some_iff.1 hf
  obtain ⟨hl, rfl⟩ := acquireMailboxSpin_eq h1
  have hk : kickMbox c j (s1.setMailbox j { s1.mailboxes j with lock := .locked }) =
      some (s1.setMailbox j { s1.mailboxes j with lock := .locked }) := by
    rw [kickMbox]
    split_ifs
    · show (isInQueue (s1.current c) (.send j) s1).bind _ = _
      rw [H.isInQueue_running hr, Option.bind_some]
      show (isInQueue (s1.current c) (.recv j) s1).map _ = _
      rw [H.isInQueue_running hr]
      rfl
    · rfl
  rw [hk] at hf
  cases hf
  simp [releaseMailboxSpin, Kernel.setMailbox, ← hl]

theorem freeSpace_eq (hs : freeSpace c s = some s') : ∃ m, s' = freed (s.current c) m s := by
  unfold freeSpace at hs
  by_cases ht : (s.cur c).threadGroupId = 0
  · rw [if_pos ht] at hs
    obtain ⟨m, -, rfl⟩ := Option.map_eq_some_iff.1 hs
    exact ⟨m, (if_pos ht).symm⟩
  · rw [if_neg ht] at hs
    cases hs
    exact ⟨s.memory, (if_neg ht).symm⟩

/-- The process of CPU `c` has ended; others may still wait for it. -/
theorem Mid.exit (H : Mid (some c) s q) (hr : (s.cur c).status = .running)
    (ht : ∃ i, s.current c = .pcb i) : Mid (some c) (markExited (s.current c) s) q := by
  have hr : (s.pcb (s.current c)).status = .running := hr
  obtain ⟨i, ht⟩ := ht
  rw [ht] at hr ⊢
  refine ⟨H.rings, fun {u} => ?_, fun {u} => ?_, fun k => ?_, fun j => ?_, fun {u} => ?_, H.pipe,
    H.inj, H.own, fun {a} ha => ?_⟩
  · rw [markExited_pcb, H.ready]
    split_ifs with e
    · simp [e, hr]
    · rfl
  · rw [markExited_pcb, H.blocked]
    split_ifs with e
    · simp [e, hr]
    · rfl
  · rw [markExited_pcb, if_neg (by simp)]
    exact H.idle k
  · rw [markExited_pcb]
    split_ifs with e
    · exact fun h => absurd rfl h
    · exact H.pid j
  · rw [markExited_pcb]
    split_ifs with e
    · intro _ hc
      exact absurd (e.trans ht.symm) (hc c rfl)
    · exact H.exited
  · have hne : s.current a ≠ .pcb i := fun e => ha (by rw [H.inj (e.trans ht.symm)])
    show ((markExited (.pcb i) s).pcb (s.current a)).status = .running
    rw [markExited_pcb, if_neg hne]
    exact H.running ha

/-- `do_exit` after `free_lock`. -/
def exitRest (c : ℕ) (s : Kernel) : Option Kernel := do
  let s ← freeBarrier c s
  let s ← freeMbox c s
  let s ← freeSpace c s
  wakeup (.wait (s.current c)) (markExited (s.current c) s)

theorem exitCurrent_eq : exitCurrent c s = (freeLock c (s.cur c).pid s).bind (exitRest c) := rfl

/-- The process is marked and those that wait for it are woken. -/
theorem exitRest_eq (H : Mid (some c) s q) (hr : (s.cur c).status = .running)
    (ht : ∃ i, s.current c = .pcb i) (hs : exitRest c s = some s') :
    ∃ m l, s' = wokenAll (q (.wait (s.current c))) l
        (markExited (s.current c) (freed (s.current c) m s)) ∧
      Mid (some c) (markExited (s.current c) (freed (s.current c) m s)) q ∧
      Mid (some c) s' (movedAll q (.wait (s.current c)) [] (q (.wait (s.current c)))) := by
  simp only [exitRest, Option.bind_eq_bind, Option.bind_eq_some_iff] at hs
  obtain ⟨s2, h2, s3, h3, s4, h4, h5⟩ := hs
  obtain rfl := freeBarrier_eq H hr h2
  obtain rfl := freeMbox_eq H hr h3
  obtain ⟨m, rfl⟩ := freeSpace_eq h4
  have hfc : (freed (s3.current c) m s3).current = s3.current := by
    unfold freed; split_ifs <;> rfl
  have hf : Mid (some c) (freed (s3.current c) m s3) q := by
    unfold freed
    split_ifs <;> exact H
  have H4 : Mid (some c) (markExited (s3.current c) (freed (s3.current c) m s3)) q := by
    have := hf.exit (by rw [Kernel.cur, freed_pcb, hfc]; exact hr) (by rwa [hfc])
    rwa [hfc] at this
  rw [hfc] at h5
  obtain ⟨l, h6, H6⟩ := H4.wakeup (h := .wait (s3.current c)) (by simp)
  rw [h6] at h5
  cases h5
  exact ⟨m, l, rfl, H4, H6⟩

theorem exitRest_micros (H : Mid (some c) s q) (hr : (s.cur c).status = .running)
    (ht : ∃ i, s.current c = .pcb i) (hs : exitRest c s = some s') :
    ∃ q', Micros c (fun o => o = .exit ∨ o = .proc) (s, q) (s', q') ∧ (s'.cur c).status = .exited ∧
      q' (.wait (s'.current c)) = [] := by
  obtain ⟨m, l, rfl, H4, H6⟩ := exitRest_eq H hr ht hs
  have hm : Micros c (fun o => o = .exit ∨ o = .proc) (s, q) (_, _) :=
    .trans (.single (Or.inl rfl) (.exit m hr) H4)
      (.single (Or.inr rfl) (.wake (.wait (s.current c)) _ [] l (by simp) (by simp)) H6)
  have hcur := hm.current
  refine ⟨_, hm, ?_, ?_⟩
  · have hr : (s.pcb (s.current c)).status = .running := hr
    have hn := H.notMem (t := s.current c) (by simp [hr]) (by simp [hr]) (.wait (s.current c))
    rw [Kernel.cur, hcur, wokenAll_status, if_neg hn, markExited_pcb, if_pos rfl]
  · rw [hcur, movedAll_self _ (by simp)]

/-- **do_exit** up to `do_scheduler`: the process has ended and nobody waits for it. -/
theorem exitCurrent_micros (H : Mid (some c) s q) (hr : (s.cur c).status = .running)
    (ht : ∃ i, s.current c = .pcb i) (hs : exitCurrent c s = some s') :
    ∃ q', Micros c Call.exit.about (s, q) (s', q') ∧ (s'.cur c).status = .exited ∧
      q' (.wait (s'.current c)) = [] := by
  rw [exitCurrent_eq] at hs
  obtain ⟨s1, h1, h2⟩ := Option.bind_eq_some_iff.1 hs
  obtain ⟨q1, m1, c1⟩ := freeLock_micros H hr h1
  have hcur : s1.current = s.current := m1.current
  obtain ⟨q2, m2, hx, hw⟩ := exitRest_micros (m1.mid H) (by rw [c1]; exact hr) (by rwa [hcur]) h2
  exact ⟨q2, m1.trans (m2.mono fun _ h => h.imp_right Or.inl), hx, hw⟩

end RiscvKernel.Sched
