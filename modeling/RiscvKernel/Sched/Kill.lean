import RiscvKernel.Sched.Agreement

/-!
# Killing processes

`do_kill` only marks a process. A process that is running or ready ends itself when it is next in
the kernel, through `do_exit`, and leaves no trace. A process that is blocked is ended by
`force_exit`, which the next `do_scheduler` on any CPU calls in the place of its own process; it leaves
the process in the queue it waits in, or puts it in the ready queue. So what a kill should do holds in
exactly the runs in which every process that is killed in a queue has been woken before
the next `do_scheduler`.
-/

namespace RiscvKernel.Sched

open Lib Mm

variable {c : ℕ} {P : Obj → Prop} {o : Obj} {s s' s1 s2 : Kernel} {q q' : Queues} {t : Task} {a : Act}
  {as : List Act}

/-! ## The life of a process in the log -/

/-- How often the pages of the process have been freed since it was created. -/
def freesStep (t : Task) (n : ℕ) : Event → ℕ
  | .create u => if u = t then 0 else n
  | .freeAll u _ => if u = t then n + 1 else n
  | _ => n

def frees (t : Task) (log : List Event) : ℕ := log.foldl (freesStep t) 0

theorem frees_append (log es : List Event) :
    frees t (log ++ es) = es.foldl (freesStep t) (frees t log) := List.foldl_append ..

theorem frees_wake (n : ℕ) (ts : List Task) : (ts.map Event.wake).foldl (freesStep t) n = n := by
  induction ts with
  | nil => rfl
  | cons u ts ih => exact ih

/-- What happens to a process between two states: the log grows, and if the process has ended, it stays so
until it is created anew. -/
def Stays (t : Task) (s s' : Kernel) : Prop :=
  ∃ es, s'.log = s.log ++ es ∧
    ((s.pcb t).status = .exited → .create t ∉ es → (s'.pcb t).status = .exited)

theorem Stays.refl : Stays t s s := ⟨[], by simp, fun h _ => h⟩

theorem Stays.trans (h1 : Stays t s s1) (h2 : Stays t s1 s2) : Stays t s s2 := by
  obtain ⟨es1, hl1, h1⟩ := h1
  obtain ⟨es2, hl2, h2⟩ := h2
  refine ⟨es1 ++ es2, by rw [hl2, hl1, List.append_assoc], fun he hn => ?_⟩
  rw [List.mem_append, not_or] at hn
  exact h2 (h1 he hn.1) hn.2

theorem Stays.of_log (es : List Event) (hl : s'.log = s.log ++ es)
    (he : (s.pcb t).status = .exited → (s'.pcb t).status = .exited) : Stays t s s' :=
  ⟨es, hl, fun h _ => he h⟩

/-- The log only grows. -/
theorem Micro.log_append (hm : Micro c o s q s' q') : ∃ es, s'.log = s.log ++ es := by
  cases hm with
  | memory | sleepUntil | kill | key | mutex | cond | barrier | mbox | pipe => exact ⟨[], (List.append_nil _).symm⟩
  | create | put | got | block | wake => exact ⟨_, rfl⟩
  | exit m hr =>
    unfold freed
    split_ifs
    · exact ⟨_, List.append_assoc ..⟩
    · exact ⟨_, rfl⟩

theorem Micro.stays (hm : Micro c o s q s' q') (H : Mid (some c) s q) (H' : Mid (some c) s' q') :
    Stays t s s' := by
  rcases hm.lives H H' with ⟨i, p, m, l, -, -, -, -, rfl⟩ | L
  · refine ⟨[.create (.pcb i)], rfl, fun he hn => ?_⟩
    rw [created_pcb, if_neg]
    · exact he
    · rintro rfl
      simp at hn
  · obtain ⟨es, hl⟩ := hm.log_append
    exact .of_log _ hl (L.exited t)

/-- The pages of a process are freed once at most, and not while it lives. -/
def FreedOnce (s : Kernel) : Prop :=
  ∀ t, frees t s.log ≤ 1 ∧ ((s.pcb t).status ≠ .exited → frees t s.log = 0)

theorem FreedOnce.of_frees (H : FreedOnce s) (hf : ∀ t, frees t s'.log = frees t s.log)
    (he : ∀ t, (s.pcb t).status = .exited → (s'.pcb t).status = .exited) : FreedOnce s' := by
  intro t
  rw [hf]
  exact ⟨(H t).1, fun h => (H t).2 fun e => h (he t e)⟩

theorem Micro.freedOnce (hm : Micro c o s q s' q') (H : Mid (some c) s q) (H' : Mid (some c) s' q')
    (F : FreedOnce s) : FreedOnce s' := by
  rcases hm.lives H H' with ⟨i, p, m, l, -, hs, -, -, rfl⟩ | L
  · intro t
    have hf : frees t (created (.pcb i) p m l s).log =
        if .pcb i = t then 0 else frees t s.log := frees_append s.log [.create (.pcb i)]
    rw [hf, created_pcb]
    split_ifs with h1 h2 h2
    · simp
    · exact absurd h1.symm h2
    · exact absurd h2.symm h1
    · exact F t
  · cases hm with
    | memory | sleepUntil | kill | key | mutex | cond | barrier | mbox | pipe =>
      exact F.of_frees (fun _ => rfl) L.exited
    | put | got | block => exact F.of_frees (fun t => frees_append s.log _) L.exited
    | wake h ts rest l => exact F.of_frees (fun t => (frees_append s.log _).trans (frees_wake _ ts)) L.exited
    | create =>
      have := L.processId
      have : s.processId + 1 = s.processId := this
      omega
    | exit m hr =>
      have hr : (s.pcb (s.current c)).status = .running := hr
      have h0 : frees (s.current c) s.log = 0 := (F _).2 (by simp [hr])
      have hf : ∀ t, frees t (freed (s.current c) m s).log ≤
          frees t s.log + if s.current c = t then 1 else 0 := by
        intro t
        unfold freed
        split_ifs with h1 h2 h2
        · exact (frees_append s.log _).trans_le (by simp [freesStep, h2])
        · exact (frees_append s.log _).trans_le (by simp [freesStep, h2])
        · omega
        · omega
      intro t
      have he : frees t (markExited (s.current c) (freed (s.current c) m s)).log =
          frees t (freed (s.current c) m s).log := frees_append _ [.exit _]
      rw [he, markExited_pcb, freed_pcb]
      have := hf t
      split_ifs with e
      · rw [if_pos e.symm] at this
        subst e
        exact ⟨by omega, fun h => absurd rfl h⟩
      · rw [if_neg (Ne.symm e)] at this
        have := F t
        exact ⟨by omega, fun h => by have := this.2 h; omega⟩

/-! ## Runs with kills -/

/-- A run of the kernel from `s` on leaves no trace of the processes that have ended. -/
structure DiesOnce (s : Kernel) (as : List Act) : Prop where
  /-- a process that has ended is in no queue -/
  queue : ∃ q, Rings (Run.run next s as).links q ∧
    ∀ t, ((Run.run next s as).pcb t).status = .exited → ∀ h, t ∉ q h
  /-- a process that has ended stays so until its slot is used again -/
  stays : ∀ as1 as2, as = as1 ++ as2 → ∀ t, Stays t (Run.run next s as1) (Run.run next s as)
  /-- the pages of a process are freed once at most -/
  frees : ∀ t, Sched.frees t (Run.run next s as).log ≤ 1

theorem Micros.stays (hm : Micros c P (s, q) (s', q')) (H : Mid (some c) s q) : Stays t s s' :=
  (hm.inv (I := fun s' _ => Stays t s s')
    (fun _ _ _ _ _ _ h M hm M' => h.trans (hm.stays M M')) H .refl).1

theorem Micros.freedOnce (hm : Micros c P (s, q) (s', q')) (H : Mid (some c) s q) (F : FreedOnce s) :
    FreedOnce s' :=
  (hm.inv (I := fun s _ => FreedOnce s) (fun _ _ _ _ _ _ F M hm M' => hm.freedOnce M M' F) H F).1

theorem Switched.stays (S : Switched c s s' q q') : Stays t s s' := by
  obtain ⟨ts, hl, -⟩ := S.log
  exact .of_log _ hl (S.exited t).2

theorem Switched.freedOnce (S : Switched c s s' q q') (F : FreedOnce s) : FreedOnce s' := by
  obtain ⟨ts, hl, -⟩ := S.log
  refine F.of_frees (fun t => ?_) fun t => (S.exited t).2
  rw [hl, frees_append, frees_wake]

theorem Begins.stays {s0 : Kernel} {k : Option Call} (hb : Begins s a s0 k) : Stays t s s0 := by
  cases hb with
  | enter c e call => exact .of_log [.enter (s.current c) call] rfl fun h => h
  | go => exact .refl
  | fresh => exact .refl

theorem Begins.freedOnce {s0 : Kernel} {k : Option Call} (hb : Begins s a s0 k) (F : FreedOnce s) : FreedOnce s0 := by
  cases hb with
  | enter c e call => exact F.of_frees (fun t => frees_append s.log [.enter _ _]) fun _ h => h
  | go => exact F
  | fresh => exact F

/-- What a step keeps that ends nobody in the place of another. -/
theorem segment_stays (H : Good none s q) (he : Enabled s a) (hx : ExecOk s a) {r : Kernel ⊕ Kernel}
    (hs : segment s a = some r) (F : FreedOnce s) :
    (∀ t, Stays t s (r.elim id id)) ∧ FreedOnce (r.elim id id) := by
  obtain ⟨s0, k, hb, ho⟩ := segment_outcome H he hx hs
  have H0 := (hb.good H).mid.weaken (x := some a.cpu)
  have F0 := hb.freedOnce F
  clear hs
  cases ho with
  | leave hm hr hs =>
    refine ⟨fun t => hb.stays.trans ((hm.stays H0).trans ?_), ?_⟩
    · rcases hs with rfl | ⟨call, r, -, rfl⟩
      · exact .of_log [] (List.append_nil _).symm fun h => h
      · exact .of_log _ rfl fun h => h
    · rcases hs with rfl | ⟨call, r, -, rfl⟩
      · exact hm.freedOnce H0 F0
      · exact (hm.freedOnce H0 F0).of_frees (fun t => frees_append _ [.ret _ _ _]) fun _ h => h
  | switch hm =>
    refine ⟨fun t => hb.stays.trans ((hm.stays H0).trans ?_), hm.freedOnce H0 F0⟩
    exact .of_log [] (List.append_nil _).symm fun h => h

theorem step_stays (H : Good none s q) (he : Enabled s a) (hx : ExecOk s a) (hz : NoReap s a)
    (hs : step s a = some s') (F : FreedOnce s) : (∀ t, Stays t s s') ∧ FreedOnce s' := by
  rw [step_eq] at hs
  obtain ⟨r, h1, h2⟩ := Option.bind_eq_some_iff.1 hs
  obtain ⟨h3, h4⟩ := segment_stays H he hx h1 F
  cases r with
  | inl s1 => cases h2; exact ⟨h3, h4⟩
  | inr s1 =>
    obtain ⟨s0, k, hb, ho⟩ := segment_outcome H he hx h1
    obtain ⟨q1, H1, hw⟩ := ho.good_switch (hb.good H)
    obtain ⟨s2, q2, h5, -, S⟩ := H1.mid.doScheduler hw (hz s1 h1)
    have h2 : doScheduler a.cpu a.env.now s1 = some s' := h2
    rw [h5] at h2
    cases h2
    exact ⟨fun t => (h3 t).trans S.stays, S.freedOnce h4⟩

/-- The steps of a run with kills in which `do_exec` succeeds and no `do_scheduler` finds a process that is
blocked and killed. -/
def NoZombie (s : Kernel) (a : Act) : Prop := ExecOk s a ∧ NoReap s a

instance (s : Kernel) (a : Act) : Decidable (NoZombie s a) := inferInstanceAs (Decidable (_ ∧ _))

/-- **A killed process dies once** in every run in which it is woken before it is found by
`clean_zombie`. -/
theorem run_diesOnce (h0 : Start s) (hv : Run.Valid next (Steps NoZombie) s as) : DiesOnce s as := by
  have hinv : ∀ s a, ((∃ q, Good none s q) ∧ FreedOnce s) → Steps NoZombie s a →
      ((∃ q, Good none (next s a) q) ∧ FreedOnce (next s a)) := by
    rintro s a ⟨⟨q, H⟩, F⟩ ⟨he, hn, hx, hz⟩
    exact ⟨step_good H he hx hz (next_eq hn), (step_stays H he hx hz (next_eq hn) F).2⟩
  have hF0 : FreedOnce s := fun t => by
    rw [h0.log]
    simp [frees]
  have hI := hv.inv (I := fun s => (∃ q, Good none s q) ∧ FreedOnce s) hinv ⟨⟨_, h0.good⟩, hF0⟩
  obtain ⟨⟨q, H⟩, F⟩ := hI
  refine ⟨⟨q, H.mid.rings, fun t ht => H.mid.notMem (by simp [ht]) (by simp [ht])⟩, ?_, fun t => (F t).1⟩
  rintro as1 as2 rfl t
  rw [Run.valid_append] at hv
  have hI1 := hv.1.inv (I := fun s => (∃ q, Good none s q) ∧ FreedOnce s) hinv ⟨⟨_, h0.good⟩, hF0⟩
  rw [Run.run_append]
  refine (hv.2.inv (I := fun s' => ((∃ q, Good none s' q) ∧ FreedOnce s') ∧
    Stays t (Run.run next s as1) s') (fun s' a hI hok => ?_) ⟨hI1, .refl⟩).2
  obtain ⟨⟨⟨q', H'⟩, F'⟩, hst⟩ := hI
  have hok' := hok
  obtain ⟨he, hn, hx, hz⟩ := hok
  exact ⟨hinv s' a ⟨⟨q', H'⟩, F'⟩ hok', hst.trans ((step_stays H' he hx hz (next_eq hn) F').1 t)⟩

/-- A thread that is killed while it runs on another CPU. -/
theorem diesOnce_running : DiesOnce boot (twoProcesses ++ [calls 0 (.kill 2), calls 1 .timer, resumes 1]) :=
  run_diesOnce start_boot (by decide +kernel)

theorem Rings.mem_of_next {l : Links Task Head} {h : Head} (hr : Rings l q)
    (hn : l.next (.inr h) = .inl t) : t ∈ q h := by
  have hs := hr.seg h
  cases hq : q h with
  | nil =>
    rw [hq] at hs
    rw [hs.next_nil] at hn
    cases hn
  | cons u us =>
    rw [hq] at hs
    rw [hs.next_cons] at hn
    cases hn
    simp

/-- A thread that is killed while it sleeps: `force_exit` leaves it in the queue of sleepers. -/
theorem killed_sleeper_linked :
    ¬ ∀ as, Run.Valid next (Steps ExecOk) boot as → DiesOnce boot as := by
  intro h
  obtain ⟨⟨q, hr, hq⟩, -, -⟩ := h (twoProcesses ++
    [calls 1 (.sleep 100), resumes 1, calls 0 (.kill 2), calls 0 .timer]) (by decide +kernel)
  exact hq (.pcb ⟨1, by decide⟩) (by decide +kernel) .sleep (Rings.mem_of_next hr (by decide +kernel))

end RiscvKernel.Sched
