import RiscvKernel.Sched.Objects

/-!
# Rounds of a barrier

The arrivals at a barrier with the goal `G` fall into rounds of `G`. The last one of a round lets the
others go, so all but the arrivals of the unfinished round have been released (`run_rounds`).

`BarrierStep` is an abstract barrier, which knows its goal, its count, who waits and who has arrived. A
step of the kernel is a step of it (`segment_barrier`).
-/

namespace RiscvKernel.Sched

open Lib Mm

variable {c i : ℕ} {e : Env} {s s' s1 s2 : Kernel} {q q' q1 q2 : Queues} {t : Task} {call : Call}
  {point : Point} {a : Act} {as as1 as2 : List Act} {r : Kernel ⊕ Kernel} {G : ℕ} {before since : List Task}

/-! ## The abstract barrier -/

/-- Who has called `do_barrier_wait` on barrier `i`, in order. -/
def arrivals (i : ℕ) (log : List Event) : List Task :=
  log.filterMap fun
    | .enter t (.barrierWait idx) => if idx = i then some t else none
    | _ => none

/-- A barrier with the processes that wait and those that have arrived. -/
structure Rounds where
  goal : ℤ
  arrived : ℤ
  waiting : List Task
  arrivals : List Task

/-- What a step of the process `t` may do to the barrier. -/
inductive BarrierStep (t : Task) (b : Rounds) : Rounds → Prop
  | other (g : ℤ) (hg : g = b.goal ∨ 0 < g) : BarrierStep t b { b with goal := g }
  | last (h : b.goal ≤ b.arrived + 1) :
    BarrierStep t b { b with arrived := 0, waiting := [], arrivals := b.arrivals ++ [t] }
  | block (h : ¬ b.goal ≤ b.arrived + 1) :
    BarrierStep t b
      { b with
        arrived := b.arrived + 1
        waiting := b.waiting ++ [t]
        arrivals := b.arrivals ++ [t] }
  | destroy : BarrierStep t b { b with goal := 0, arrived := 0, waiting := [] }

variable {b b' : Rounds}

/-- The count is that of the processes that wait, and nobody waits without a goal. -/
structure Rounds.Counted (b : Rounds) : Prop where
  arrived : b.arrived = b.waiting.length
  goal : 0 ≤ b.goal
  unused : b.goal = 0 → b.waiting = []

/-- The arrivals after those in `before` fall into rounds of `G`; those of the unfinished round wait. -/
structure Rounds.InRounds (G : ℕ) (before since : List Task) (b : Rounds) : Prop where
  arrivals : b.arrivals = before ++ since
  lt : b.waiting.length < G
  waiting : b.waiting = since.drop (G * (since.length / G))

theorem BarrierStep.counted (h : BarrierStep t b b') (C : b.Counted) : b'.Counted := by
  cases h with
  | other g hg =>
    refine ⟨C.arrived, ?_, fun h0 => C.unused ?_⟩
    · rcases hg with rfl | hg
      · exact C.goal
      · exact hg.le
    · have h0 : g = 0 := h0
      omega
  | last h => exact ⟨rfl, C.goal, fun _ => rfl⟩
  | block h =>
    refine ⟨?_, C.goal, fun h0 => ?_⟩
    · rw [List.length_append, List.length_singleton, Nat.cast_succ, ← C.arrived]
    · have h1 := C.arrived
      rw [C.unused h0] at h1
      have h0 : b.goal = 0 := h0
      have h1 : b.arrived = 0 := h1
      omega
  | destroy => exact ⟨rfl, le_rfl, fun _ => rfl⟩

/-- One more arrival. -/
theorem drop_snoc {xs : List Task} (hG : 0 < G) (hw : (xs.drop (G * (xs.length / G))).length < G) :
    (xs ++ [t]).drop (G * ((xs ++ [t]).length / G)) =
      if G ≤ (xs.drop (G * (xs.length / G))).length + 1 then [] else xs.drop (G * (xs.length / G)) ++ [t] := by
  have hm := Nat.div_add_mod xs.length G
  have hr := Nat.mod_lt xs.length hG
  have hlen : (xs.drop (G * (xs.length / G))).length = xs.length % G := by
    rw [List.length_drop]
    omega
  rw [hlen, List.length_append, List.length_singleton]
  split_ifs with h
  · have hd : (xs.length + 1) / G = xs.length / G + 1 := by
      rw [show xs.length + 1 = G * (xs.length / G + 1) by rw [Nat.mul_add]; omega,
        Nat.mul_div_cancel_left _ hG]
    rw [hd]
    refine List.drop_eq_nil_of_le ?_
    rw [List.length_append, List.length_singleton, Nat.mul_add]
    omega
  · have hd : (xs.length + 1) / G = xs.length / G := by
      apply Nat.div_eq_of_lt_le
      · rw [Nat.mul_comm]
        omega
      · rw [Nat.mul_comm, Nat.mul_add]
        omega
    rw [hd, List.drop_append_of_le_length (by omega)]

/-- **The abstract barrier goes on in rounds** while its goal is `G`. -/
theorem BarrierStep.inRounds (h : BarrierStep t b b') (hG : 0 < G) (hg : b'.goal = G) (C : b.Counted)
    (R : b.InRounds G before since) : ∃ since, b'.InRounds G before since := by
  have hlt := R.lt
  have hw := R.waiting
  have hone : b.arrivals ++ [t] = before ++ (since ++ [t]) := by rw [R.arrivals, List.append_assoc]
  rw [hw] at hlt
  cases h with
  | other g hg => exact ⟨since, R.arrivals, R.lt, hw⟩
  | last h =>
    have hg : b.goal = G := hg
    rw [hg, C.arrived] at h
    refine ⟨since ++ [t], hone, hG, ?_⟩
    rw [drop_snoc hG hlt, if_pos]
    rw [← hw]
    exact_mod_cast h
  | block h =>
    have hg : b.goal = G := hg
    rw [hg, C.arrived] at h
    have hle : ¬ G ≤ b.waiting.length + 1 := fun h' => h (by exact_mod_cast h')
    refine ⟨since ++ [t], hone, ?_, ?_⟩
    · show (b.waiting ++ [t]).length < G
      rw [List.length_append, List.length_singleton]
      omega
    · rw [drop_snoc hG hlt, ← hw, if_neg hle]
  | destroy =>
    have hg : (0 : ℤ) = G := hg
    omega

/-! ## The barrier of the kernel -/

/-- Barrier `i` of the kernel. -/
def rounds (i : ℕ) (s : Kernel) (q : Queues) : Rounds where
  goal := (s.barriers i).goal
  arrived := (s.barriers i).arrived
  waiting := q (.barrier i)
  arrivals := arrivals i s.log

theorem arrivals_append (log es : List Event) :
    arrivals i (log ++ es) = arrivals i log ++ arrivals i es := List.filterMap_append

theorem arrivals_other {es : List Event} (h : ∀ t, .enter t (.barrierWait i) ∉ es) : arrivals i es = [] := by
  refine List.filterMap_eq_nil_iff.2 fun ev hev => ?_
  cases ev with
  | enter t call =>
    cases call with
    | barrierWait idx =>
      refine if_neg ?_
      rintro rfl
      exact h t hev
    | _ => rfl
  | _ => rfl

theorem arrivals_skip {log es : List Event} (h : ∀ t, .enter t (.barrierWait i) ∉ es) :
    arrivals i (log ++ es) = arrivals i log := by
  rw [arrivals_append, arrivals_other h, List.append_nil]

/-- The arrivals of a process are its entries into the call. -/
theorem count_arrivals (t : Task) (log : List Event) :
    (arrivals i log).count t = entries (.barrierWait i) t log := by
  induction log with
  | nil => rfl
  | cons ev log ih =>
    have h1 : arrivals i (ev :: log) = arrivals i [ev] ++ arrivals i log := arrivals_append [ev] log
    have h2 : entries (.barrierWait i) t (ev :: log) =
      entries (.barrierWait i) t [ev] + entries (.barrierWait i) t log := entries_append [ev] log
    rw [h1, h2, List.count_append, ih]
    congr 1
    by_cases hev : ∃ u, ev = .enter u (.barrierWait i)
    · obtain ⟨u, rfl⟩ := hev
      have ha : arrivals i [.enter u (.barrierWait i)] = [u] := by simp [arrivals]
      rw [ha, entries, List.count_singleton, List.count_singleton]
      by_cases e : u = t
      · simp [e]
      · simp [e]
    · have ha : arrivals i [ev] = [] := arrivals_other fun u hu => hev ⟨u, (List.mem_singleton.1 hu).symm⟩
      rw [ha, entries, List.count_eq_zero.2 fun hm => hev ⟨t, (List.mem_singleton.1 hm).symm⟩]
      rfl

/-- The processes in the queue of barrier `i` are in the call. -/
def Parked (i : ℕ) (s : Kernel) (q : Queues) : Prop :=
  ∀ t ∈ q (.barrier i), ∃ point, s.cont t = .inCall (.barrierWait i) point

theorem rounds_congr (es : List Event) (hb : s'.barriers i = s.barriers i)
    (hq : q' (.barrier i) = q (.barrier i)) (hl : s'.log = s.log ++ es)
    (he : ∀ t, .enter t (.barrierWait i) ∉ es) : rounds i s' q' = rounds i s q := by
  unfold rounds
  rw [hb, hq, hl, arrivals_skip he]

/-- A step that is about other things. -/
theorem Apart.rounds (h : Apart (.barrier i) c s s' q q') :
    Sched.rounds i s' q' = Sched.rounds i s q := by
  obtain ⟨es, hl, he⟩ := h.log
  exact rounds_congr es (h.barrier i rfl) (h.queue (.barrier i) rfl (by simp)) hl
    fun t ht => he t _ _ ht (Or.inl rfl) ⟨i, rfl, rfl⟩

theorem rounds_entered (q : Queues) (h : call ≠ .barrierWait i) :
    rounds i (entered c call s) q = rounds i s q := by
  refine rounds_congr [.enter (s.current c) call] rfl rfl rfl fun t ht => ?_
  have ht := List.mem_singleton.1 ht
  cases ht
  exact h rfl

theorem rounds_ret (q : Queues) (call : Call) (v : ℤ) :
    rounds i (leave c (s.addLog (.ret (s.current c) call v))) q = rounds i s q :=
  rounds_congr [.ret (s.current c) call v] rfl rfl rfl (by simp)

/-- Who waits in the queue stays in the call. -/
theorem Parked.congr (hp : Parked i s q) (M : Mid (some c) s q) (hn : s.current c ∉ q (.barrier i))
    (hq : ∀ t ∈ q' (.barrier i), t ∈ q (.barrier i))
    (hc : ∀ t, t ≠ s.current c → (s.pcb t).status ≠ .exited → s'.cont t = s.cont t) : Parked i s' q' := by
  intro t ht
  have ht := hq t ht
  have hb : (s.pcb t).status = .blocked := M.blocked.1 ⟨.barrier i, by simp, ht⟩
  have hne : t ≠ s.current c := by
    rintro rfl
    exact hn ht
  rw [hc t hne (by rw [hb]; simp)]
  exact hp t ht

/-- `do_barrier_init` sets goals and keys. -/
theorem doBarrierInit_eq (key goal : ℤ) (s : Kernel) : (doBarrierInit key goal s).2 = s ∨
    ∃ j k, 0 < goal ∧
      (doBarrierInit key goal s).2 = s.setBarrier j { s.barriers j with goal := goal, key := k } := by
  rw [doBarrierInit]
  split_ifs with h1 h2
  · exact Or.inl rfl
  · exact Or.inl rfl
  · split
    · exact Or.inr ⟨_, _, by omega, rfl⟩
    · split
      · exact Or.inr ⟨_, _, by omega, rfl⟩
      · exact Or.inl rfl

theorem setBarrier_self (s : Kernel) (x : Barrier) : (s.setBarrier i x).barriers i = x :=
  Function.update_self ..

theorem setBarrier_of_ne {j : ℕ} (h : j ≠ i) (s : Kernel) (x : Barrier) :
    (s.setBarrier j x).barriers i = s.barriers i := Function.update_of_ne (Ne.symm h) ..

/-- What is shown about the first part of a step of the process `t`, before which the barrier is `b`. -/
def BarrierAfter (i : ℕ) (t : Task) (b : Rounds) (r : Kernel ⊕ Kernel) : Prop :=
  ∃ q1, Rings (r.elim id id).links q1 ∧ BarrierStep t b (rounds i (r.elim id id) q1) ∧
    Parked i (r.elim id id) q1

/-- The process returns from the call. -/
theorem BarrierAfter.ret (hr : Rings s.links q) (hb : BarrierStep t b (rounds i s q)) (hp : Parked i s q)
    (hn : s.current c ∉ q (.barrier i)) (v : ℤ) :
    BarrierAfter i t b (.inl (leave c (s.addLog (.ret (s.current c) call v)))) := by
  refine ⟨q, hr, ?_, fun u hu => ?_⟩
  · have h : rounds i (leave c (s.addLog (.ret (s.current c) call v))) q = rounds i s q :=
      rounds_ret q call v
    exact h ▸ hb
  · have hne : u ≠ s.current c := by
      rintro rfl
      exact hn hu
    obtain ⟨point, h⟩ := hp u hu
    exact ⟨point, (Function.update_of_ne hne ..).trans h⟩

theorem BarrierStep.refl (t : Task) (b : Rounds) : BarrierStep t b b := .other _ (Or.inl rfl)

/-- **do_barrier_init** of a barrier. -/
theorem barrierInit_after (M : Mid (some c) s q) (hp : Parked i s q) (hn : s.current c ∉ q (.barrier i))
    (key goal : ℤ) (hs : (some (.ret (doBarrierInit key goal s).1, (doBarrierInit key goal s).2)).bind
      (following c call) = some r) : BarrierAfter i (s.current c) (rounds i s q) r := by
  cases hs
  rcases doBarrierInit_eq key goal s with h | ⟨j, k, hg, h⟩
  · rw [h]
    exact .ret M.rings (.refl _ _) hp hn _
  · rw [h]
    refine BarrierAfter.ret (s := s.setBarrier j _) M.rings ?_ hp hn _
    by_cases e : j = i
    · subst e
      have hb : rounds j (s.setBarrier j { s.barriers j with goal := goal, key := k }) q =
          { rounds j s q with goal := goal } := by
        unfold rounds
        rw [setBarrier_self]
        rfl
      rw [hb]
      exact .other goal (Or.inr hg)
    · rw [rounds_congr [] (setBarrier_of_ne e s _) rfl (List.append_nil _).symm (by simp)]
      exact .refl _ _

/-- **do_barrier_wait** of a process that has just arrived. -/
theorem barrierWait_after (B : Busy c s q) (hp : Parked i s q) (hn : s.current c ∉ q (.barrier i))
    (hi : i < barrierNum) (ht : ∃ j, s.current c = .pcb j)
    (hb : rounds i s q = { b with arrivals := b.arrivals ++ [s.current c] })
    (hs : (doBarrierWait c i s).bind (following c (.barrierWait i)) = some r) :
    BarrierAfter i (s.current c) b r := by
  obtain ⟨hgoal, harr, hwait, hlog⟩ := Rounds.mk.inj hb
  cases hl : (s.barriers i).lock with
  | locked =>
    rw [doBarrierWait_spin hi hl] at hs
    cases hs
  | unlocked =>
  by_cases hg : (s.barriers i).goal ≤ (s.barriers i).arrived + 1
  · obtain ⟨l, h1, h2⟩ := doBarrierWait_last (c := c) B.mid hi hl hg
    rw [h1] at hs
    cases hs
    have hw := movedAll_self (h := .barrier i) q (by simp) [] (q (.barrier i))
    have h3 : rounds i ((wokenAll (q (.barrier i)) l s).setBarrier i { s.barriers i with arrived := 0 })
        (movedAll q (.barrier i) [] (q (.barrier i))) =
        { b with arrived := 0, waiting := [], arrivals := b.arrivals ++ [s.current c] } := by
      unfold rounds
      rw [setBarrier_self, hw, ← hlog, ← hgoal]
      congr 1
      exact arrivals_skip (by simp)
    refine .ret (s := (wokenAll (q (.barrier i)) l s).setBarrier i _) h2.rings ?_ (fun t ht => ?_) ?_ _
    · rw [h3]
      exact .last (by rw [← hgoal, ← harr]; exact hg)
    · rw [hw] at ht
      cases ht
    · rw [hw]
      exact List.not_mem_nil
  · rw [doBarrierWait_block hi hl hg, doBlock_eq B.alive] at hs
    cases hs
    have M1 := (B.block (P := fun _ => True) ht (h := .barrier i) ⟨by simp, by simp, by simp⟩
      trivial).mid B.mid
    rw [doBlock_eq B.alive] at M1
    refine ⟨push q (.barrier i) (s.current c), M1.rings, ?_, fun t ht => ?_⟩
    · have h3 : rounds i ((((enqueue (s.current c) (.barrier i) s).setStatus (s.current c)
          .blocked).addLog (.block (s.current c) (.barrier i))).setBarrier i
          { s.barriers i with arrived := (s.barriers i).arrived + 1 })
          (push q (.barrier i) (s.current c)) =
          { b with
            arrived := b.arrived + 1
            waiting := b.waiting ++ [s.current c]
            arrivals := b.arrivals ++ [s.current c] } := by
        unfold rounds
        rw [setBarrier_self, push_self, ← hlog, ← hgoal, ← harr, ← hwait]
        congr 1
        exact arrivals_skip (by simp)
      refine h3 ▸ ?_
      exact .block (by rw [← hgoal, ← harr]; exact hg)
    · rcases mem_push.1 ht with ht | ⟨-, rfl⟩
      · have hne : t ≠ s.current c := by
          rintro rfl
          exact hn ht
        obtain ⟨point, h⟩ := hp t ht
        exact ⟨point, (Function.update_of_ne hne ..).trans h⟩
      · exact ⟨_, Function.update_self ..⟩

/-- **do_barrier_destroy** of the barrier. -/
theorem barrierDestroy_after (M : Mid (some c) s q) (hi : i < barrierNum)
    (hs : ((doBarrierDestroy i s).map (Prod.mk (.ret 0))).bind (following c call) = some r) :
    BarrierAfter i (s.current c) (rounds i s q) r := by
  obtain ⟨l, h1, h2⟩ := doBarrierDestroy_eq M hi
  rw [h1] at hs
  cases hs
  have hw := movedAll_self (h := .barrier i) q (by simp) [] (q (.barrier i))
  have h3 : rounds i ((wokenAll (q (.barrier i)) l s).setBarrier i
      { s.barriers i with key := unused, goal := 0, arrived := 0 })
      (movedAll q (.barrier i) [] (q (.barrier i))) =
      { rounds i s q with goal := 0, arrived := 0, waiting := [] } := by
    unfold rounds
    rw [setBarrier_self, hw]
    congr 1
    exact arrivals_skip (by simp)
  refine .ret (s := (wokenAll (q (.barrier i)) l s).setBarrier i _) h2.rings ?_ (fun t ht => ?_) ?_ _
  · rw [h3]
    exact .destroy
  · rw [hw] at ht
    cases ht
  · rw [hw]
    exact List.not_mem_nil

/-- Who returns from a call about the barrier leaves it as it is. -/
theorem resumeBarrier_after (H : Good none s q) (hp : Parked i s q) (v : ℤ) :
    BarrierAfter i (s.current c) (rounds i s q)
      (.inl (leave c (s.addLog (.ret (s.current c) call v)))) :=
  .ret H.mid.rings (.refl _ _) hp (H.notMem c _) v

/-- A call about the barrier. -/
theorem Call.aboutBarrier (h : call.about (.barrier i)) :
    (∃ key goal, call = .barrierInit key goal) ∨ call = .barrierWait i ∨ call = .barrierDestroy i := by
  cases call with
  | barrierInit key goal => exact Or.inl ⟨key, goal, rfl⟩
  | barrierWait idx =>
    obtain ⟨j, rfl, hj⟩ := h
    cases hj
    exact Or.inr (Or.inl rfl)
  | barrierDestroy idx =>
    obtain ⟨j, rfl, hj⟩ := h
    cases hj
    exact Or.inr (Or.inr rfl)
  | _ => simp [Call.about, At] at h

theorem enter_barrier (H : Good none s q) (A : Alive s) (hi : i < barrierNum)
    (hm : call.madeBy (s.current c)) (hp : Parked i s q) (hb : call.about (.barrier i))
    (hs : (syscall c e (entered c call s) call).bind (following c call) = some r) :
    BarrierAfter i (s.current c) (rounds i s q) r := by
  have H0 : Good none (entered c call s) q := H.enter
  have B0 : Busy c (entered c call s) q := H0.busy (A.cur H c)
  rcases Call.aboutBarrier hb with ⟨key, goal, rfl⟩ | rfl | rfl
  · have h0 : rounds i (entered c (.barrierInit key goal) s) q = rounds i s q := rounds_entered q (by simp)
    rw [← h0]
    exact barrierInit_after B0.mid hp (H.notMem c _) key goal hs
  · refine barrierWait_after (s := entered c (.barrierWait i) s) B0 hp (H.notMem c _) hi
      (Call.madeBy_pcb hm (by simp) (by simp)) ?_ hs
    have h1 : arrivals i [.enter (s.current c) (.barrierWait i)] = [s.current c] := by simp [arrivals]
    exact congrArg (Rounds.mk _ _ _) ((arrivals_append _ _).trans (by rw [h1]; rfl))
  · have h0 : rounds i (entered c (.barrierDestroy i) s) q = rounds i s q := rounds_entered q (by simp)
    rw [← h0]
    exact barrierDestroy_after B0.mid hi hs

/-- **A step of the kernel is a step of the abstract barrier.** -/
theorem segment_barrier (H : Good none s q) (A : Alive s) (he : Enabled s a) (hk : ExecOk s a)
    (hi : i < barrierNum) (hp : Parked i s q) (hs : segment s a = some r) :
    BarrierAfter i (s.current a.cpu) (rounds i s q) r := by
  by_cases hb : ∃ call, a.callOf s = some call ∧ call.about (.barrier i)
  · obtain ⟨call, hcall, hb⟩ := hb
    obtain ⟨c, env, move⟩ := a
    cases move with
    | enter k =>
      cases hcall
      exact enter_barrier H A hi he.2.2 hp hb (segment_enter H A hs)
    | go =>
      cases hc : s.cont (s.current c) with
      | inCall k point =>
        simp only [Act.callOf, hc] at hcall
        cases hcall
        have hs := segment_go H A hc hs
        have hf := (H.cont _ _ _ hc).2
        have hpoint : ∃ v, point = .ret v := by
          rcases Call.aboutBarrier hb with ⟨key, goal, rfl⟩ | rfl | rfl <;> cases point <;>
            simp_all [Fits]
        obtain ⟨v, rfl⟩ := hpoint
        cases hs
        exact resumeBarrier_after H hp v
      | _ => simp [Act.callOf, hc] at hcall
  · have hn : ∀ call, a.callOf s = some call → ¬ call.about (.barrier i) := fun call h h' => hb ⟨call, h, h'⟩
    obtain ⟨q1, hr, hap⟩ := segment_apart H A he hk hn (by simp [Call.about]) hs
    refine ⟨q1, hr, ?_, hp.congr H.mid.weaken (H.notMem a.cpu _) (fun t ht => ?_) hap.cont⟩
    · rw [hap.rounds]
      exact .refl _ _
    · rwa [hap.queue (.barrier i) rfl (by simp)] at ht

/-! ## Runs -/

theorem next_barriers (H : Good none s q) (A : Alive s) (he : Enabled s a) (hk : NoKill s a)
    (hs : segment s a = some r) : (next s a).barriers = (r.elim id id).barriers := by
  rcases segment_next H A he hk hs with ⟨rfl, -⟩ | ⟨s1, q1, q2, rfl, -, -, W⟩
  · rfl
  · exact W.barriers

theorem Switched.rounds (W : Switched c s1 s2 q1 q2) : Sched.rounds i s2 q2 = Sched.rounds i s1 q1 := by
  obtain ⟨ts, hl, -⟩ := W.log
  exact rounds_congr _ (congrFun W.barriers i) (W.queue (.barrier i) (by simp) (by simp)) hl (by simp)

theorem Parked.switch (hp : Parked i s1 q1) (W : Switched c s1 s2 q1 q2) : Parked i s2 q2 := by
  intro t ht
  rw [W.queue (.barrier i) (by simp) (by simp)] at ht
  rw [W.cont]
  exact hp t ht

/-- What holds of a barrier in every run. -/
structure BarrierInv (i : ℕ) (s : Kernel) (q : Queues) : Prop where
  counted : (rounds i s q).Counted
  parked : Parked i s q
  bracketed : Bracketed none s

theorem segment_barrierInv (H : Good none s q) (A : Alive s) (I : BarrierInv i s q) (he : Enabled s a)
    (hk : NoKill s a) (hi : i < barrierNum) (hs : segment s a = some r) :
    ∃ q1, Rings (r.elim id id).links q1 ∧ BarrierInv i (r.elim id id) q1 ∧
      BarrierStep (s.current a.cpu) (rounds i s q) (rounds i (r.elim id id) q1) := by
  obtain ⟨q1, hr, hb, hp⟩ := segment_barrier H A he hk.2 hi I.parked hs
  exact ⟨q1, hr, ⟨hb.counted I.counted, hp, segment_bracketed H A he hk.2 I.bracketed hs⟩, hb⟩

theorem BarrierInv.switch (I : BarrierInv i s1 q1) (W : Switched c s1 s2 q1 q2) : BarrierInv i s2 q2 where
  counted := W.rounds ▸ I.counted
  parked := I.parked.switch W
  bracketed := I.bracketed.switch W

theorem Start.barrierInv (h0 : Start s) : BarrierInv i s fun _ => [] where
  counted := by
    refine ⟨?_, ?_, fun _ => rfl⟩
    · show (s.barriers i).arrived = 0
      rw [h0.barriers]
    · show 0 ≤ (s.barriers i).goal
      rw [h0.barriers]
  parked := fun t ht => by cases ht
  bracketed := h0.bracketed

/-- Barrier `i` has the goal `G` all along. -/
def GoalStays (i G : ℕ) (s : Kernel) (a : Act) : Prop := NoKill s a ∧ ((next s a).barriers i).goal = G

instance (s : Kernel) (a : Act) : Decidable (GoalStays i G s a) := inferInstanceAs (Decidable (_ ∧ _))

/-- The rounds of a barrier of the goal `G` since the state `s0`, in which nobody waited at it: who waits
is who has arrived in the unfinished round, all others are released, and the `k`-th wait since `s0` is
complete only if all of its round have arrived. -/
structure RoundsOk (i G : ℕ) (s0 s : Kernel) (q : Queues) (since : List Task) : Prop where
  queues : QueuesAgree s q
  arrivals : arrivals i s.log = arrivals i s0.log ++ since
  arrived : (s.barriers i).arrived = (q (.barrier i)).length
  lt : (q (.barrier i)).length < G
  waiting : q (.barrier i) = since.drop (G * (since.length / G))
  released : since.length - (q (.barrier i)).length = G * (since.length / G)
  between : G ∣ since.length → q (.barrier i) = []
  complete : ∀ t k, since[k]? = some t →
    (Sched.arrivals i s0.log ++ since.take k).count t < returns (.barrierWait i) t s.log →
    G * (k / G + 1) ≤ since.length

/-- Who has returned from a wait has been released from it. -/
theorem BarrierInv.returns_le (I : BarrierInv i s q) (M : Mid none s q) {xs : List Task}
    (h : arrivals i s.log = xs ++ q (.barrier i)) (t : Task) :
    returns (.barrierWait i) t s.log ≤ xs.count t := by
  have hc : entries (.barrierWait i) t s.log = xs.count t + (q (.barrier i)).count t := by
    rw [← count_arrivals, h, List.count_append]
  by_cases ht : t ∈ q (.barrier i)
  · obtain ⟨point, hp⟩ := I.parked t ht
    have h1 := I.bracketed.inCall t (.barrierWait i) point (by simp) (by simp) hp
    rw [hc, List.count_eq_one_of_mem (M.rings.nodup _) ht] at h1
    omega
  · have h1 := I.bracketed.le t (.barrierWait i) (by simp)
    rwa [hc, List.count_eq_zero_of_not_mem ht] at h1

/-- The rounds of the abstract barrier are those of the kernel. -/
theorem BarrierInv.roundsOk {s0 : Kernel} (I : BarrierInv i s q) (M : Mid none s q)
    (R : (rounds i s q).InRounds G (arrivals i s0.log) since) : RoundsOk i G s0 s q since := by
  have hs : arrivals i s.log = arrivals i s0.log ++ since := R.arrivals
  have hw : q (.barrier i) = since.drop (G * (since.length / G)) := R.waiting
  have hm := Nat.mul_div_le since.length G
  refine ⟨M.queuesAgree, hs, I.counted.arrived, R.lt, hw, ?_, fun hd => ?_, fun t k hk hr => ?_⟩
  · rw [hw, List.length_drop]
    omega
  · rw [hw, Nat.mul_div_cancel' hd, List.drop_length]
  · have h1 : arrivals i s.log =
        (arrivals i s0.log ++ since.take (G * (since.length / G))) ++ q (.barrier i) := by
      rw [hs, hw, List.append_assoc, List.take_append_drop]
    have h2 := I.returns_le M h1 t
    have hlt : k < G * (since.length / G) := by
      by_contra hle
      have h3 : (since.take (G * (since.length / G))).count t ≤ (since.take k).count t :=
        (List.take_sublist_take_left (by omega)).count_le t
      rw [List.count_append] at h2 hr
      omega
    have h4 : k / G < since.length / G := Nat.div_lt_of_lt_mul hlt
    calc G * (k / G + 1) ≤ G * (since.length / G) := Nat.mul_le_mul_left G h4
      _ ≤ since.length := hm

/-- A barrier at which nobody waits is at the beginning of a round. -/
theorem BarrierInv.inRounds (I : BarrierInv i s q) (hG : 0 < G) (h : (s.barriers i).arrived = 0) :
    (rounds i s q).InRounds G (arrivals i s.log) [] := by
  have hl : ((rounds i s q).waiting.length : ℤ) = 0 := I.counted.arrived.symm.trans h
  have hw : (rounds i s q).waiting = [] := List.length_eq_zero_iff.1 (by exact_mod_cast hl)
  refine ⟨(List.append_nil _).symm, by rw [hw]; exact hG, ?_⟩
  rw [hw, List.drop_nil]

/-- **The rounds of a barrier** in every run in which nobody is killed: from a state `s0` in which nobody
waits at the barrier, and as long as its goal is `G`, the arrivals fall into rounds of `G`. -/
theorem run_rounds (h0 : Start s) (hi : i < barrierNum) (hG : 0 < G)
    (h1 : Run.Valid next (Steps NoKill) s as1) (hidle : ((Run.run next s as1).barriers i).arrived = 0)
    (h2 : Run.Valid next (Steps (GoalStays i G)) (Run.run next s as1) as2) :
    ∃ q since, RoundsOk i G (Run.run next s as1) (Run.run next (Run.run next s as1) as2) q since := by
  obtain ⟨q, H, A, I⟩ := run_inv (J := BarrierInv i) (fun _ _ h => h)
    (fun s q a r H A I he hk hs => by
      obtain ⟨q1, hr, I1, -⟩ := segment_barrierInv H A I he hk hi hs
      exact ⟨q1, hr, I1⟩)
    (fun _ _ _ _ _ _ W I => I.switch W) h0 h0.barrierInv h1
  generalize Run.run next s as1 = s0 at *
  obtain ⟨q', H', -, I', since, R⟩ := run_keeps
    (J := fun s q => BarrierInv i s q ∧ ∃ since, (rounds i s q).InRounds G (arrivals i s0.log) since)
    (fun _ _ h => h.1)
    (fun s q a r H A ⟨I, since, R⟩ he hk hs => by
      obtain ⟨q1, hr, I1, hb⟩ := segment_barrierInv H A I he hk.1 hi hs
      have hg : ((r.elim id id).barriers i).goal = G := by
        rw [← next_barriers H A he hk.1 hs]
        exact hk.2
      exact ⟨q1, hr, I1, hb.inRounds hG hg I.counted R⟩)
    (fun _ _ _ _ _ _ W ⟨I, since, R⟩ => ⟨I.switch W, since, by rwa [W.rounds]⟩)
    ⟨q, H, A, I, [], I.inRounds hG hidle⟩ h2
  exact ⟨q', since, I'.roundsOk H'.mid R⟩

/-- Two processes meet at a barrier, and one of them is back for the next round. -/
theorem rounds_twoMeet : ∃ q since, RoundsOk 0 2
    (Run.run next boot (twoProcesses ++ [calls 0 (.barrierInit 5 2)]))
    (Run.run next (Run.run next boot (twoProcesses ++ [calls 0 (.barrierInit 5 2)]))
      [calls 0 (.barrierWait 0), resumes 0, calls 1 (.barrierWait 0), calls 1 (.barrierWait 0), resumes 1])
    q since :=
  run_rounds start_boot (by decide) (by decide) (by decide +kernel) (by decide +kernel) (by decide +kernel)

end RiscvKernel.Sched
