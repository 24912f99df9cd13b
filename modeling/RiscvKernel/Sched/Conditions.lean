import RiscvKernel.Sched.Mutex
import RiscvKernel.Sched.Objects

/-!
# Condition variables

The processes that wait at a condition are those that an abstract condition variable would hold
(`condStep`): who waits goes to the end, a signal takes the first one, a broadcast takes all
(`segment_cond`). So no signal misses a process that waits (`foldl_condStep`), and who returns from the
wait has the mutex (`run_condition`).
-/

namespace RiscvKernel.Sched

open Lib Mm

variable {c i k : ℕ} {e : Env} {s s' s1 s2 : Kernel} {q q' q1 q2 : Queues} {t : Task} {call : Call}
  {point : Point} {a : Act} {as : List Act} {r : Kernel ⊕ Kernel} {w : List Task} {es : List Event}

/-! ## The abstract condition variable -/

/-- What a process does to a condition variable. -/
inductive CondMove
  | wait (t : Task)
  | signal
  | clear
  | other
deriving DecidableEq

/-- What an event does to condition `k`. -/
def Event.cond (k : ℕ) : Event → CondMove
  | .enter t (.condWait cond mutex) =>
    if cond = k ∧ 0 ≤ mutex ∧ mutex < lockNum then .wait t else .other
  | .enter _ (.condSignal idx) => if idx = k then .signal else .other
  | .enter _ (.condBroadcast idx) => if idx = k then .clear else .other
  | .enter _ (.condDestroy idx) => if idx = k then .clear else .other
  | _ => .other

/-- The processes that wait, in order, after `w` have waited. -/
def condStep (w : List Task) : CondMove → List Task
  | .wait t => w ++ [t]
  | .signal => w.tail
  | .clear => []
  | .other => w

/-- The processes that wait at condition `k` when `w` have waited before the events. -/
def condQueue (k : ℕ) (w : List Task) (es : List Event) : List Task :=
  es.foldl (fun w ev => condStep w (ev.cond k)) w

/-- The number of signals to condition `k`. -/
def signals (k : ℕ) (es : List Event) : ℕ := es.countP fun ev => ev.cond k = .signal

/-- Who starts to wait at condition `k`, in order. -/
def waits (k : ℕ) (es : List Event) : List Task :=
  es.filterMap fun ev =>
    match ev.cond k with
    | .wait t => some t
    | _ => none

theorem condQueue_append (w : List Task) (es es' : List Event) :
    condQueue k w (es ++ es') = condQueue k (condQueue k w es) es' := List.foldl_append

theorem condQueue_other (h : ∀ ev ∈ es, ev.cond k = .other) (w : List Task) : condQueue k w es = w := by
  induction es with
  | nil => rfl
  | cons ev es ih =>
    rw [condQueue, List.foldl_cons, h ev (by simp)]
    exact ih fun ev' h' => h ev' (by simp [h'])

theorem condQueue_noEntry (h : ∀ t call, .enter t call ∉ es) (w : List Task) : condQueue k w es = w := by
  refine condQueue_other (fun ev hev => ?_) w
  cases ev with
  | enter t call => exact absurd hev (h t call)
  | _ => rfl

/-- **No signal misses a process that waits**: each takes the one that has waited longest, and those that
come later are left alone. -/
theorem condQueue_signals (h : ∀ ev ∈ es, ev.cond k ≠ .clear) (hn : signals k es ≤ w.length) :
    condQueue k w es = w.drop (signals k es) ++ waits k es := by
  induction es generalizing w with
  | nil => exact (List.append_nil w).symm
  | cons ev es ih =>
    have ih := fun w' => ih (w := w') fun ev' h' => h ev' (by simp [h'])
    have hc : condQueue k w (ev :: es) = condQueue k (condStep w (ev.cond k)) es := rfl
    have hs : signals k (ev :: es) = signals k es + if ev.cond k = .signal then 1 else 0 := by
      simp [signals, List.countP_cons]
    rw [hs] at hn
    rw [hc, hs]
    cases hev : ev.cond k with
    | wait t =>
      have hw : waits k (ev :: es) = t :: waits k es := List.filterMap_cons_some (by rw [hev])
      rw [hev] at hn
      rw [hw, condStep, ih _ (by simp at hn ⊢; omega), if_neg (by simp), Nat.add_zero,
        List.drop_append_of_le_length (by simpa using hn), List.append_assoc]
      rfl
    | signal =>
      have hw : waits k (ev :: es) = waits k es := List.filterMap_cons_none (by rw [hev])
      rw [hev, if_pos rfl] at hn
      rw [hw, condStep, if_pos rfl, ih _ (by rw [List.length_tail]; omega), List.drop_tail]
    | clear => exact absurd hev (h ev (by simp))
    | other =>
      have hw : waits k (ev :: es) = waits k es := List.filterMap_cons_none (by rw [hev])
      rw [hev] at hn
      rw [hw, condStep, if_neg (by simp), Nat.add_zero, ih _ (by simpa using hn)]

/-! ## The parts of a step -/

/-- The processes `ts` have been woken, and nobody else has another status than before. -/
structure Readied (ts : List Task) (s s' : Kernel) : Prop where
  woken : ∀ t ∈ ts, (s'.pcb t).status = .ready
  other : ∀ t ∉ ts, (s'.pcb t).status = (s.pcb t).status

theorem readied_wokenAll (ts : List Task) (l : Links Task Head) (h : s'.pcb = (wokenAll ts l s).pcb) :
    Readied ts s s' := by
  refine ⟨fun t ht => ?_, fun t ht => ?_⟩
  · rw [h]
    exact congrArg Pcb.status (if_pos ht)
  · rw [h]
    exact congrArg Pcb.status (if_neg ht)

/-- The call returns, `ts` have been woken and `rest` are left at condition `k`. -/
def Wakened (k : ℕ) (ts rest : List Task) (s : Kernel) (r : Kernel ⊕ Kernel) : Prop :=
  ∃ s1 q1, r = .inl s1 ∧ Rings s1.links q1 ∧ q1 (.cond k) = rest ∧ Readied ts s s1

/-- **do_condition_signal** wakes the process that has waited longest. -/
theorem condSignal_part (M : Mid (some c) s q) (hk : k < conditionNum)
    (hs : ((doConditionSignal k s).map (Prod.mk (.ret 0))).bind (following c call) = some r) :
    Wakened k ((q (.cond k)).take 1) (q (.cond k)).tail s r := by
  cases hl : (s.conditions k).lock with
  | locked =>
    rw [doConditionSignal_spin hk hl] at hs
    cases hs
  | unlocked =>
    cases hq : q (.cond k) with
    | nil =>
      rw [doConditionSignal_nil M hk hl hq] at hs
      cases hs
      exact ⟨_, q, rfl, M.rings, hq, ⟨by simp, fun _ _ => rfl⟩⟩
    | cons t ts =>
      obtain ⟨l, h1, h2⟩ := doConditionSignal_cons M hk hl hq
      rw [woken_eq, moved_eq (by simp)] at *
      rw [h1] at hs
      cases hs
      exact ⟨_, _, rfl, h2.rings, movedAll_self q (by simp) _ _, readied_wokenAll [t] l rfl⟩

/-- **do_condition_broadcast** wakes all. -/
theorem condBroadcast_part (M : Mid (some c) s q) (hk : k < conditionNum)
    (hs : ((doConditionBroadcast k s).map (Prod.mk (.ret 0))).bind (following c call) = some r) :
    Wakened k (q (.cond k)) [] s r := by
  cases hl : (s.conditions k).lock with
  | locked =>
    rw [doConditionBroadcast_spin hk hl] at hs
    cases hs
  | unlocked =>
    obtain ⟨l, h1, h2⟩ := doConditionBroadcast_eq M hk hl
    rw [h1] at hs
    cases hs
    exact ⟨_, _, rfl, h2.rings, movedAll_self q (by simp) _ _, readied_wokenAll _ l rfl⟩

/-- **do_condition_destroy** wakes all. -/
theorem condDestroy_part (M : Mid (some c) s q) (hk : k < conditionNum)
    (hs : ((doConditionDestroy k s).map (Prod.mk (.ret 0))).bind (following c call) = some r) :
    Wakened k (q (.cond k)) [] s r := by
  obtain ⟨l, h1, h2⟩ := doConditionDestroy_eq M hk
  rw [h1] at hs
  cases hs
  exact ⟨_, _, rfl, h2.rings, movedAll_self q (by simp) _ _, readied_wokenAll _ l rfl⟩

/-- **do_condition_wait** puts the process at the end of the queue and goes on with the mutex. -/
theorem condWait_part (B : Busy c s q) (hk : k < conditionNum) (ht : ∃ j, s.current c = .pcb j) {m : ℤ}
    (hm : ¬ (m < 0 ∨ (lockNum : ℤ) ≤ m))
    (hs : (doConditionWait c k m s).bind (following c call) = some r) :
    ∃ s1 q1, r = .inr (s1.setCont (s1.current c) (.inCall call (.relock m))) ∧
      Micros c (Call.condWait k m).about (s, q) (s1, q1) ∧
      q1 (.cond k) = q (.cond k) ++ [s.current c] := by
  cases hl : (s.conditions k).lock with
  | locked =>
    rw [doConditionWait_spin hk hm hl] at hs
    cases hs
  | unlocked =>
    rw [doConditionWait_eq hk hm hl] at hs
    obtain ⟨⟨o, s1⟩, h1, h2⟩ := Option.bind_eq_some_iff.1 hs
    obtain ⟨s2, h3, h4⟩ := Option.map_eq_some_iff.1 h1
    cases h4
    cases h2
    have hb : Micros c (Call.condWait k m).about (s, q) _ :=
      B.block ht (h := .cond k) ⟨by simp, by simp, by simp⟩ (Or.inl (.nat k))
    obtain ⟨q1, h5, -⟩ := release_micros (P := At .mutex m) (hb.mid B.mid) (fun _ h => h) h3
    have hn : ¬ At .mutex m (.cond k) := by simp [At]
    have hq := (h5.apart hn).queue (.cond k) rfl (by simp)
    exact ⟨s1, q1, rfl, hb.trans (h5.mono fun _ => Or.inr), hq.trans push_self⟩

theorem doConditionInit_links (key : ℤ) (s : Kernel) : (doConditionInit key s).2.links = s.links := by
  rw [doConditionInit]
  split_ifs
  · rfl
  · split
    · rfl
    · split <;> rfl

/-- A call about the condition. -/
theorem Call.aboutCond (h : call.about (.cond k)) :
    (∃ key, call = .condInit key) ∨ (∃ m, call = .condWait k m) ∨ call = .condSignal k ∨
      call = .condBroadcast k ∨ call = .condDestroy k := by
  cases call with
  | condInit key => exact Or.inl ⟨key, rfl⟩
  | condWait cond m =>
    obtain ⟨j, rfl, hj⟩ | ⟨j, -, hj⟩ := h
    · cases hj
      exact Or.inr (Or.inl ⟨m, rfl⟩)
    · cases hj
  | condSignal idx | condBroadcast idx | condDestroy idx =>
    obtain ⟨j, rfl, hj⟩ := h
    cases hj
    simp
  | _ => simp [Call.about, At] at h

theorem cond_of_not_about (h : ¬ call.about (.cond k)) : (Event.enter t call).cond k = .other := by
  have hcond : ∀ idx : ℤ, ¬ At .cond idx (.cond k) → idx ≠ k := by
    rintro idx h rfl
    exact h (.nat k)
  cases call with
  | condWait cond m => exact if_neg fun h' => hcond cond (fun h1 => h (Or.inl h1)) h'.1
  | condSignal idx | condBroadcast idx | condDestroy idx => exact if_neg (hcond idx h)
  | _ => rfl

theorem enter_cond (H : Good none s q) (A : Alive s) (hk : k < conditionNum)
    (hm : call.madeBy (s.current c)) (hb : call.about (.cond k))
    (hs : (syscall c e (entered c call s) call).bind (following c call) = some r) :
    ∃ q1, Rings (r.elim id id).links q1 ∧
      q1 (.cond k) = condStep (q (.cond k)) ((Event.enter (s.current c) call).cond k) := by
  have H0 : Good none (entered c call s) q := H.enter
  have B0 : Busy c (entered c call s) q := H0.busy (A.cur H c)
  rcases Call.aboutCond hb with ⟨key, rfl⟩ | ⟨m, rfl⟩ | rfl | rfl | rfl
  · cases hs
    refine ⟨q, ?_, rfl⟩
    show Rings (doConditionInit key (entered c (.condInit key) s)).2.links q
    rw [doConditionInit_links]
    exact B0.mid.rings
  · by_cases hmx : m < 0 ∨ (lockNum : ℤ) ≤ m
    · have hev : (Event.enter (s.current c) (.condWait k m)).cond k = .other := if_neg (by omega)
      have hs : (doConditionWait c k m (entered c (.condWait k m) s)).bind
        (following c (.condWait k m)) = some r := hs
      rw [doConditionWait, if_neg (index_in hk), if_pos hmx] at hs
      cases hs
      exact ⟨q, B0.mid.rings, by rw [hev]; rfl⟩
    · have hev : (Event.enter (s.current c) (.condWait k m)).cond k = .wait (s.current c) :=
        if_pos ⟨rfl, by omega, by omega⟩
      obtain ⟨s1, q1, rfl, h2, h3⟩ := condWait_part B0 hk (Call.madeBy_pcb hm (by simp) (by simp)) hmx hs
      exact ⟨q1, (h2.mid B0.mid).rings, by rw [hev]; exact h3⟩
  · obtain ⟨s1, q1, rfl, h1, h2, -⟩ := condSignal_part B0.mid hk hs
    exact ⟨q1, h1, h2.trans (by rw [Event.cond, if_pos rfl]; rfl)⟩
  · obtain ⟨s1, q1, rfl, h1, h2, -⟩ := condBroadcast_part B0.mid hk hs
    exact ⟨q1, h1, h2.trans (by rw [Event.cond, if_pos rfl]; rfl)⟩
  · obtain ⟨s1, q1, rfl, h1, h2, -⟩ := condDestroy_part B0.mid hk hs
    exact ⟨q1, h1, h2.trans (by rw [Event.cond, if_pos rfl]; rfl)⟩

theorem mutexAcquire_out {m : ℤ} {o : Out} (hs : doMutexLockAcquire c m s = some (o, s')) : o ≠ .exit := by
  rintro rfl
  rw [doMutexLockAcquire] at hs
  split_ifs at hs
  · cases hs
  · obtain ⟨s1, -, h⟩ := Option.bind_eq_some_iff.1 hs
    dsimp only at h
    split_ifs at h <;> cases h

/-- Who goes on in a call about the condition leaves its queue alone. -/
theorem go_cond (H : Good none s q) (A : Alive s) (hc : s.cont (s.current c) = .inCall call point)
    (hb : call.about (.cond k))
    (hs : (resume c e s call point).bind (following c call) = some r) :
    ∃ q1, Rings (r.elim id id).links q1 ∧ q1 (.cond k) = q (.cond k) := by
  obtain ⟨hm, hf⟩ := H.cont _ _ _ hc
  have hpoint : (∃ v, point = .ret v) ∨ ∃ m, point = .relock m := by
    rcases Call.aboutCond hb with ⟨key, rfl⟩ | ⟨m, rfl⟩ | rfl | rfl | rfl <;> cases point <;>
      simp_all [Fits]
  rcases hpoint with ⟨v, rfl⟩ | ⟨m, rfl⟩
  · cases hs
    exact ⟨q, H.mid.rings, rfl⟩
  · have B : Busy c s q := H.busy (A.cur H c)
    have ht : ∃ j, s.current c = .pcb j := by
      refine Call.madeBy_pcb hm ?_ ?_
      · rintro rfl
        exact hf.elim
      · rintro name rfl
        exact hf.elim
    obtain ⟨⟨o, s1⟩, h1, h2⟩ := Option.bind_eq_some_iff.1 hs
    obtain ⟨q1, hmi, hst⟩ := ends_mutexAcquire (P := At .mutex m) B ht (fun _ h => h) h1
    have hn : ¬ At .mutex m (.cond k) := by simp [At]
    have hq := (hmi.apart hn).queue (.cond k) rfl (by simp)
    cases o with
    | ret v =>
      cases h2
      exact ⟨q1, (hmi.mid B.mid).rings, hq⟩
    | sched p =>
      cases h2
      exact ⟨q1, (hmi.mid B.mid).rings, hq⟩
    | exit => exact absurd rfl (mutexAcquire_out h1)

/-- **A step of the kernel is a step of the abstract condition variable.** -/
theorem segment_cond (H : Good none s q) (A : Alive s) (he : Enabled s a) (hx : ExecOk s a)
    (hk : k < conditionNum) (hs : segment s a = some r) :
    ∃ q1, Rings (r.elim id id).links q1 ∧ q1 (.cond k) = condQueue k (q (.cond k)) (a.entry s) := by
  by_cases hb : ∃ call, a.callOf s = some call ∧ call.about (.cond k)
  · obtain ⟨call, hcall, hb⟩ := hb
    obtain ⟨c, env, move⟩ := a
    cases move with
    | enter _ =>
      cases hcall
      exact enter_cond H A hk he.2.2 hb (segment_enter H A hs)
    | go =>
      cases hc : s.cont (s.current c) with
      | inCall _ point =>
        simp only [Act.callOf, hc] at hcall
        cases hcall
        exact go_cond H A hc hb (segment_go H A hc hs)
      | _ => simp [Act.callOf, hc] at hcall
  · have hn : ∀ call, a.callOf s = some call → ¬ call.about (.cond k) := fun call h h' => hb ⟨call, h, h'⟩
    obtain ⟨q1, hr, hap⟩ := segment_apart H A he hx hn (by simp [Call.about]) hs
    refine ⟨q1, hr, (hap.queue (.cond k) rfl (by simp)).trans (condQueue_other (fun ev hev => ?_) _).symm⟩
    rw [Act.entry] at hev
    split at hev
    · rename_i call hm
      rw [List.mem_singleton.1 hev]
      exact cond_of_not_about (hn call (by rw [Act.callOf, hm]))
    · cases hev

/-! ## The mutex -/

/-- The process owns mutex `i`. -/
def HasMutex (i : ℕ) (t : Task) (s : Kernel) : Prop :=
  (s.mlocks i).status = .locked ∧ (s.mlocks i).pid = (s.pcb t).pid

theorem Slot.eq_of_has {w : Option Task} (S : Slot i w none s q) (G : Good none s q)
    (ht : ∃ j, t = .pcb j) (hx : (s.pcb t).status ≠ .exited) (h : HasMutex i t s) : w = some t := by
  obtain ⟨j, rfl⟩ := ht
  cases w with
  | none =>
    have hu := (S.free rfl).1
    rw [h.1] at hu
    cases hu
  | some u =>
    obtain ⟨-, h2, h3, l, rfl⟩ := S.held u rfl
    rw [G.distinct l j h3 hx (by rw [← h2, h.2])]

/-- Who returns from the wait has the mutex. -/
theorem Slot.has_ret {w : Option Task} (S : Slot i w none s q) (hk : k < conditionNum)
    {log : List Event} {v : ℤ} (h : s.log = log ++ [.ret t (.condWait k i) v]) : HasMutex i t s := by
  have hc : (Call.condWait k i).takes i := by simp [Call.takes, hk]
  have hin : Sched.inside i t s.log := h ▸ inside_ret hc log v
  obtain ⟨h1, h2, -⟩ := S.held t (S.inside t (by simp) hin)
  exact ⟨h1, h2⟩

theorem inside_quiet {log : List Event} (h : ∀ ev ∈ es, ev.ofCall = false) (h0 : inside i t log = false) :
    inside i t (log ++ es) = false := by
  rw [inside_append, h0]
  induction es with
  | nil => rfl
  | cons ev es ih =>
    have hev : insideStep i t false ev = false := by
      have h1 := h ev (by simp)
      cases ev with
      | enter | ret => cases h1
      | create | exit => exact ite_self _
      | _ => rfl
    rw [List.foldl_cons, hev]
    exact ih fun ev' h' => h ev' (by simp [h'])

/-- Who begins to wait has given the mutex up. -/
theorem wait_gives {w : Option Task} (H : Good none s q) (A : Alive s) (hi : i < lockNum)
    (hk : k < conditionNum) {e : Env} (he : Enabled s ⟨c, e, .enter (.condWait k i)⟩)
    (hn : NoKill s ⟨c, e, .enter (.condWait k i)⟩)
    (hs : segment s ⟨c, e, .enter (.condWait k i)⟩ = some r)
    (H' : Good none (next s ⟨c, e, .enter (.condWait k i)⟩) q')
    (S : Slot i w none (next s ⟨c, e, .enter (.condWait k i)⟩) q') :
    ¬ HasMutex i (s.current c) (next s ⟨c, e, .enter (.condWait k i)⟩) := by
  have H0 : Good none (entered c (.condWait k i) s) q := H.enter
  have B0 : Busy c (entered c (.condWait k i) s) q := H0.busy (A.cur H c)
  have ht : ∃ j, s.current c = .pcb j := Call.madeBy_pcb he.2.2 (by simp) (by simp)
  obtain ⟨s1, q1, rfl, h2, h3⟩ := condWait_part B0 hk ht (index_in hi) (segment_enter H A hs)
  have M1 : Mid (some c) s1 q1 := h2.mid B0.mid
  have hcur : s1.current c = s.current c := congrFun h2.current c
  rcases segment_next H A he hn hs with ⟨h, -⟩ | ⟨s2, q2, q3, h, H2, H3, W⟩
  · cases h
  cases h
  have hmem : s.current c ∈ q3 (.cond k) := by
    rw [W.queue (.cond k) (by simp) (by simp)]
    obtain rfl := M1.rings.unique H2.mid.rings
    rw [h3]
    exact List.mem_append_right _ (List.mem_singleton.2 rfl)
  have hx : ((next s ⟨c, e, .enter (.condWait k i)⟩).pcb (s.current c)).status ≠ .exited := by
    rw [H3.mid.blocked.1 ⟨.cond k, by simp, hmem⟩]
    simp
  intro ho
  rcases S.owner _ (by simp) (S.eq_of_has H' ht hx ho) with hin | ⟨⟨call, v, -, hc⟩, -⟩
  · obtain ⟨es, hl, hes⟩ := h2.events
    obtain ⟨ts, hl2, -⟩ := W.log
    have h0 : inside i (s.current c) (entered c (.condWait k i) s).log = false :=
      (inside_append s.log _).trans (if_pos ⟨rfl, by simp [Call.gives, hk]⟩)
    have h1 : (next s ⟨c, e, .enter (.condWait k i)⟩).log =
        ((entered c (.condWait k i) s).log ++ es) ++ ts.map .wake := by
      rw [hl2, ← hl]
      rfl
    rw [h1, inside_append, inside_wake, inside_quiet hes h0] at hin
    cases hin
  · rw [W.cont] at hc
    have hc : Function.update s1.cont (s1.current c) (.inCall (.condWait k i) (.relock i)) (s.current c) =
      .inCall call (.ret v) := hc
    rw [hcur, Function.update_self] at hc
    cases hc

/-! ## Runs -/

/-- In every run the queue is that of the abstract condition variable. -/
theorem run_condQueue (H : Good none s q) (A : Alive s) (hk : k < conditionNum)
    (hv : Run.Valid next (Steps NoKill) s as) :
    ∃ q' es, Good none (Run.run next s as) q' ∧ Alive (Run.run next s as) ∧
      (Run.run next s as).log = s.log ++ es ∧ q' (.cond k) = condQueue k (q (.cond k)) es := by
  generalize hs0 : s = s0 at hv ⊢
  have hlog : s.log = s0.log := by rw [hs0]
  obtain ⟨q', H', A', es, h1, h2⟩ := run_keeps (J := fun s' q' =>
      ∃ es, s'.log = s0.log ++ es ∧ q' (.cond k) = condQueue k (q (.cond k)) es) (fun _ _ h => h)
    (fun s q a r H A ⟨es, h1, h2⟩ he hn hs => by
      obtain ⟨q1, hr, hq⟩ := segment_cond H A he hn.2 hk hs
      obtain ⟨es', hl, hes⟩ := segment_log H A he hn.2 hs
      refine ⟨q1, hr, es ++ (a.entry s ++ es'), by rw [hl, h1, List.append_assoc], ?_⟩
      rw [hq, h2, condQueue_append, condQueue_append, condQueue_noEntry hes])
    (fun _ _ _ _ _ _ W ⟨es, h1, h2⟩ => by
      obtain ⟨ts, hl, -⟩ := W.log
      have hts : ∀ t call, .enter t call ∉ ts.map Event.wake := by simp
      refine ⟨es ++ ts.map .wake, by rw [hl, h1, List.append_assoc], ?_⟩
      rw [W.queue (.cond k) (by simp) (by simp), h2, condQueue_append, condQueue_noEntry hts])
    ⟨q, hs0 ▸ H, hs0 ▸ A, [], (List.append_nil _).symm, rfl⟩ hv
  exact ⟨q', es, H', A', h1, h2⟩

/-- What is said of condition `k` used with mutex `i`. -/
structure ConditionOk (k i : ℕ) (s : Kernel) (q : Queues) : Prop where
  queues : QueuesAgree s q
  queue : q (.cond k) = condQueue k [] s.log
  returns : ∀ log t v, s.log = log ++ [.ret t (.condWait k i) v] → HasMutex i t s

/-- What is said of a step. -/
structure ConditionStep (k i : ℕ) (a : Act) (s s' : Kernel) (q q' : Queues) : Prop where
  queue : q' (.cond k) = condQueue k (q (.cond k)) (a.entry s)
  signal : a.move = .enter (.condSignal k) →
    q' (.cond k) = (q (.cond k)).tail ∧ Readied ((q (.cond k)).take 1) s s'
  broadcast : a.move = .enter (.condBroadcast k) → q' (.cond k) = [] ∧ Readied (q (.cond k)) s s'
  wait : a.move = .enter (.condWait k i) →
    q' (.cond k) = q (.cond k) ++ [s.current a.cpu] ∧ ¬ HasMutex i (s.current a.cpu) s'

/-- A step that ends with the return from a call. -/
theorem Wakened.next {ts rest : List Task} (h : Wakened k ts rest (entered c call s) r)
    (H : Good none s q) (A : Alive s) (he : Enabled s a) (hn : NoKill s a) (hs : segment s a = some r) :
    Readied ts s (next s a) := by
  obtain ⟨s1, q1, rfl, -, -, h1⟩ := h
  rcases segment_next H A he hn hs with ⟨h2, -⟩ | ⟨s2, q2, q3, h2, -⟩
  · cases h2
    exact ⟨h1.woken, h1.other⟩
  · cases h2

/-- A step of the kernel at condition `k` with mutex `i`. -/
theorem conditionStep {w : Option Task} (H : Good none s q) (A : Alive s) (hi : i < lockNum)
    (hk : k < conditionNum) (he : Enabled s a) (hn : NoKill s a) (hs : segment s a = some r)
    (H' : Good none (next s a) q') (S : Slot i w none (next s a) q') :
    ConditionStep k i a s (next s a) q q' := by
  have hq : q' (.cond k) = condQueue k (q (.cond k)) (a.entry s) := by
    obtain ⟨q1, hr, hq⟩ := segment_cond H A he hn.2 hk hs
    rcases segment_next H A he hn hs with ⟨rfl, -⟩ | ⟨s1, q2, q3, rfl, H2, H3, W⟩
    · rwa [H'.mid.rings.unique hr]
    · rw [H'.mid.rings.unique H3.mid.rings, W.queue (.cond k) (by simp) (by simp),
        H2.mid.rings.unique hr, hq]
  obtain ⟨c, e, move⟩ := a
  have B0 : ∀ call, Busy c (entered c call s) q := fun call => by
    have H0 : Good none (entered c call s) q := H.enter
    exact H0.busy (A.cur H c)
  refine ⟨hq, ?_, ?_, ?_⟩
  · rintro rfl
    refine ⟨hq.trans ?_, ?_⟩
    · exact congrArg (condStep _) (if_pos rfl)
    · have h := condSignal_part (B0 (.condSignal k)).mid hk (segment_enter H A hs)
      exact h.next H A he hn hs
  · rintro rfl
    refine ⟨hq.trans ?_, ?_⟩
    · exact congrArg (condStep _) (if_pos rfl)
    · have h := condBroadcast_part (B0 (.condBroadcast k)).mid hk (segment_enter H A hs)
      exact h.next H A he hn hs
  · rintro rfl
    refine ⟨hq.trans ?_, wait_gives H A hi hk he hn hs H' S⟩
    exact congrArg (condStep _) (if_pos ⟨rfl, by omega, by omega⟩)

/-- What is said of condition `k` with mutex `i` in a state, and of the steps and runs from there. -/
structure ConditionRuns (k i : ℕ) (s : Kernel) (q : Queues) : Prop where
  ok : ConditionOk k i s q
  step : ∀ a, Steps NoKill s a →
    ∃ q', ConditionOk k i (next s a) q' ∧ ConditionStep k i a s (next s a) q q'
  later : ∀ bs, Run.Valid next (Steps NoKill) s bs → ∃ q' es, ConditionOk k i (Run.run next s bs) q' ∧
    (Run.run next s bs).log = s.log ++ es ∧
      ((∀ ev ∈ es, ev.cond k ≠ .clear) → signals k es ≤ (q (.cond k)).length →
        q' (.cond k) = (q (.cond k)).drop (signals k es) ++ waits k es)

/-- **Condition variables** in every run in which nobody is killed: the queue of condition `k` is that of
the abstract condition variable, who returns from the wait owns the mutex, and the signals of any further
run each take the process that has waited longest, so that none of them misses a process that waits. -/
theorem run_condition (h0 : Start s) (hi : i < lockNum) (hk : k < conditionNum)
    (hv : Run.Valid next (Steps NoKill) s as) : ∃ q, ConditionRuns k i (Run.run next s as) q := by
  have hok : ∀ cs, Run.Valid next (Steps NoKill) s cs → ∃ q w, ConditionOk k i (Run.run next s cs) q ∧
      Good none (Run.run next s cs) q ∧ Alive (Run.run next s cs) ∧
        Slot i w none (Run.run next s cs) q := by
    intro cs hcs
    obtain ⟨q, es, H, A, h1, h2⟩ := run_condQueue (q := fun _ => []) h0.good h0.alive hk hcs
    obtain ⟨w, q', H', S⟩ := run_slot (fun _ _ h => h) h0 hi hcs
    obtain rfl := H.mid.rings.unique H'.mid.rings
    rw [h0.log] at h1
    exact ⟨q, w, ⟨H.mid.queuesAgree, by rw [h2, h1]; rfl, fun log t v h => S.has_ret hk h⟩, H, A, S⟩
  obtain ⟨q, w, h1, H, A, S⟩ := hok as hv
  refine ⟨q, h1, fun a ha => ?_, fun bs hbs => ?_⟩
  · have hva : Run.Valid next (Steps NoKill) s (as ++ [a]) := Run.valid_append.2 ⟨hv, ha, trivial⟩
    obtain ⟨q', w', h2, H', -, S'⟩ := hok _ hva
    rw [Run.run_append] at h2 H' S'
    obtain ⟨he, hn, hk'⟩ := ha
    have hs := next_eq hn
    rw [step_eq] at hs
    obtain ⟨r, hs, -⟩ := Option.bind_eq_some_iff.1 hs
    exact ⟨q', h2, conditionStep H A hi hk he hk' hs H' S'⟩
  · obtain ⟨q', w', h2, H', -, -⟩ := hok _ (Run.valid_append.2 ⟨hv, hbs⟩)
    rw [Run.run_append] at h2 H'
    obtain ⟨q2, es, H2, -, h3, h4⟩ := run_condQueue H A hk hbs
    obtain rfl := H'.mid.rings.unique H2.mid.rings
    exact ⟨q', es, h2, h3, fun hc hn => h4.trans (condQueue_signals hc hn)⟩

/-- A process waits with the mutex, another one signals, and the first one has the mutex again. -/
theorem condition_signalled : ∃ q, ConditionRuns 0 0 (Run.run next boot (twoProcesses ++
    [calls 0 (.mutexAcquire 0), calls 0 (.condWait 0 0), resumes 0, calls 1 (.condSignal 0),
      calls 0 .timer, resumes 0])) q :=
  run_condition start_boot (by decide) (by decide) (by decide +kernel)

end RiscvKernel.Sched
