import RiscvKernel.Sched.Steps

/-!
# Queue and status agreement

In every run without `do_kill` in which `do_exec` succeeds, the queues are circular lists that fit
the statuses of the processes.
-/

namespace RiscvKernel.Sched

open Lib Mm

variable {c : ℕ} {P : Obj → Prop} {o : Obj} {s s' : Kernel} {q q' : Queues} {t : Task} {a : Act}
  {as : List Act}

/-- The invariant holds when the kernel starts. -/
theorem Start.good (h : Start s) : Good none s fun _ => [] where
  mid :=
    { rings := ⟨fun k => h.heads k, fun _ => List.nodup_nil, fun h => by cases h⟩
      ready := by
        intro t
        cases t with
        | pcb i => simp [(h.slots i).1]
        | idle k => simp [h.idle k, idlePcb]
      blocked := by
        intro t
        cases t with
        | pcb i => simp [(h.slots i).1]
        | idle k => simp [h.idle k, idlePcb]
      idle := fun k => by simp [h.idle k, idlePcb]
      pid := fun i hi => absurd (h.slots i).1 hi
      exited := fun _ _ => rfl
      pipe := fun _ => rfl
      inj := fun {a b} hab => by simpa [h.current] using hab
      own := fun {a k} hab => by simpa [h.current] using hab
      running := fun {a} _ => by simp [h.current, h.idle, idlePcb] }
  log := fun k _ _ => by rw [h.log]; rfl
  fifo := fun k _ _ l1 t l2 hl => by rw [h.log] at hl; simp at hl
  processId := by rw [h.processId]; decide
  pid := fun i hi => absurd (h.slots i).1 hi
  distinct := fun i _ hi => absurd (h.slots i).1 hi
  idle := fun k => by simp [h.idle k, idlePcb]
  cont := fun t call point hc => by rw [h.cont t] at hc; cases hc

/-! ## Nobody is killed -/

/-- Only processes that have ended are marked as killed. -/
def Alive (s : Kernel) : Prop := ∀ t, (s.pcb t).status ≠ .exited → (s.pcb t).killed = false

theorem Alive.cur (A : Alive s) (G : Good none s q) (c : ℕ) : (s.cur c).killed = false := by
  refine A _ ?_
  rw [G.mid.running (by simp)]
  simp

theorem Micro.alive (hm : Micro c o s q s' q') (ho : o ≠ .kill) (H : Alive s) (M : Mid (some c) s q) :
    Alive s' := by
  cases hm with
  | memory | key | mutex | cond | barrier | mbox | put | got | pipe => exact H
  | kill => exact absurd rfl ho
  | sleepUntil n =>
    intro u hu
    rw [setPcb_apply] at hu ⊢
    split_ifs at hu ⊢
    · exact H _ hu
    · exact H u hu
  | create i p m l he hs hp hk =>
    intro u hu
    rw [created_pcb] at hu ⊢
    split_ifs at hu ⊢
    · exact hk
    · exact H u hu
  | block h l hr =>
    intro u hu
    rw [blockedIn_pcb] at hu ⊢
    split_ifs at hu ⊢
    · exact H _ (by rw [show (s.pcb (s.current c)).status = .running from hr]; simp)
    · exact H u hu
  | wake h ts rest l hh hq =>
    intro u hu
    have hpcb : (wokenAll ts l s).pcb u =
      if u ∈ ts then { s.pcb u with status := .ready } else s.pcb u := rfl
    rw [hpcb] at hu ⊢
    split_ifs at hu ⊢ with e
    · exact H u (by rw [M.blocked.1 ⟨h, hh, by rw [hq]; simp [e]⟩]; simp)
    · exact H u hu
  | exit m hr =>
    intro u hu
    rw [markExited_pcb, freed_pcb] at hu ⊢
    split_ifs at hu ⊢
    · exact absurd rfl hu
    · exact H u hu

theorem Micros.alive (hm : Micros c P (s, q) (s', q')) (hP : ¬ P .kill) (H : Alive s)
    (M : Mid (some c) s q) : Alive s' :=
  (hm.inv (I := fun s _ => Alive s)
    (fun _ _ _ _ _ ho H M hm _ => hm.alive (fun e => hP (e ▸ ho)) H M) M H).1

/-- Where nobody is killed, the scheduler has nobody to end. -/
theorem Alive.not_reaps {x : Option ℕ} (H : Alive s) (M : Mid x s q) (now : ℕ) : ¬ Reaps now s := by
  rintro ⟨i, s1, h1, hb, hk⟩
  obtain ⟨l, ts, zs, h2, -, hts, -⟩ := M.checkSleeping now
  rw [h2] at h1
  cases h1
  have hpcb : (wokenAll ts l s).pcb (.pcb i) =
    if .pcb i ∈ ts then { s.pcb (.pcb i) with status := .ready } else s.pcb (.pcb i) := rfl
  rw [hpcb] at hb hk
  by_cases e : .pcb i ∈ ts
  · rw [if_pos e] at hb
    cases hb
  · rw [if_neg e] at hb hk
    rw [H _ (by rw [hb]; simp)] at hk
    cases hk

theorem Alive.switch (H : Alive s) (S : Switched c s s' q q') : Alive s' := by
  intro t ht
  rw [S.pcb t]
  exact H t fun e => ht ((S.exited t).2 e)

/-- The step is a call of `do_kill`. -/
def Move.kills : Move → Bool
  | .enter (.kill _) => true
  | _ => false

/-- A step that is not `do_kill` and not a `do_exec` that fails. -/
def NoKill (s : Kernel) (a : Act) : Prop := a.move.kills = false ∧ ExecOk s a

instance (s : Kernel) (a : Act) : Decidable (NoKill s a) := inferInstanceAs (Decidable (_ ∧ _))

theorem noKill_reach {call : Call} (h : ∀ pid, call ≠ .kill pid) : ¬ reach (some call) .kill := by
  rintro ⟨call, ⟨rfl⟩, h1 | h1⟩
  · cases call <;> simp_all [Call.about, At]
  · simp [Call.about] at h1

/-- A step in which nobody is killed is not about killing. -/
theorem Begins.noKill {s0 : Kernel} {k : Option Call} (hb : Begins s a s0 k) (H : Good none s q)
    (h : NoKill s a) : ¬ reach k .kill := by
  cases hb with
  | enter c e call =>
    refine noKill_reach ?_
    rintro pid rfl
    cases h.1
  | go c e call point hc =>
    refine noKill_reach ?_
    rintro pid rfl
    exact (H.cont _ _ point hc).2
  | fresh => exact fun ⟨_, h, _⟩ => by cases h

theorem Begins.alive {s0 : Kernel} {k : Option Call} (hb : Begins s a s0 k) (H : Alive s) : Alive s0 := by
  cases hb <;> exact H

theorem segment_alive (H : Good none s q) (A : Alive s) (he : Enabled s a) (h : NoKill s a)
    {r : Kernel ⊕ Kernel} (hs : segment s a = some r) : Alive (r.elim id id) := by
  obtain ⟨s0, k, hb, ho⟩ := segment_outcome H he h.2 hs
  have A0 := hb.alive A
  have H0 := hb.good H
  clear hs
  cases ho with
  | leave hm hr hs =>
    have A1 := hm.alive (hb.noKill H h) A0 H0.mid.weaken
    rcases hs with rfl | ⟨call, r, -, rfl⟩ <;> exact A1
  | switch hm => exact hm.alive (hb.noKill H h) A0 H0.mid.weaken

/-- Where nobody is killed, a step ends nobody in the place of another. -/
theorem noReap (H : Good none s q) (A : Alive s) (he : Enabled s a) (h : NoKill s a) : NoReap s a := by
  intro s1 hs
  obtain ⟨s0, k, hb, ho⟩ := segment_outcome H he h.2 hs
  obtain ⟨q1, H1, -⟩ := ho.good_switch (hb.good H)
  exact Alive.not_reaps (segment_alive H A he h hs) H1.mid _

theorem step_alive (H : Good none s q) (A : Alive s) (he : Enabled s a) (h : NoKill s a)
    (hs : step s a = some s') : Alive s' := by
  have hz := noReap H A he h
  rw [step_eq] at hs
  obtain ⟨r, h1, h2⟩ := Option.bind_eq_some_iff.1 hs
  have A1 := segment_alive H A he h h1
  cases r with
  | inl s1 => cases h2; exact A1
  | inr s1 =>
    obtain ⟨s0, k, hb, ho⟩ := segment_outcome H he h.2 h1
    obtain ⟨q1, H1, hw⟩ := ho.good_switch (hb.good H)
    obtain ⟨s2, q2, h3, H2, S⟩ := H1.mid.doScheduler hw (hz s1 h1)
    have h2 : doScheduler a.cpu a.env.now s1 = some s' := h2
    rw [h3] at h2
    cases h2
    exact A1.switch S

/-! ## Runs -/

theorem next_eq (h : step s a ≠ none) : step s a = some (next s a) := by
  cases hs : step s a with
  | none => exact absurd hs h
  | some s' => rw [next, hs, Option.getD_some]

theorem Start.alive (h0 : Start s) : Alive s := by
  intro t ht
  cases t with
  | pcb i => exact absurd (h0.slots i).1 ht
  | idle k => simp [h0.idle k, idlePcb]

/-- A step is over after its first part or goes on with `do_scheduler`. -/
theorem segment_next (H : Good none s q) (A : Alive s) (he : Enabled s a) (h : NoKill s a)
    {r : Kernel ⊕ Kernel} (hs : segment s a = some r) :
    (r = .inl (next s a) ∧ ∃ q', Good none (next s a) q') ∨ ∃ s1 q1 q2, r = .inr s1 ∧
      Good (some a.cpu) s1 q1 ∧ Good none (next s a) q2 ∧ Switched a.cpu s1 (next s a) q1 q2 := by
  have hz := noReap H A he h
  obtain ⟨s0, k, hb, ho⟩ := segment_outcome H he h.2 hs
  cases r with
  | inl s1 =>
    have hn : next s a = s1 := by rw [next, step_eq, hs]; rfl
    rw [hn]
    exact Or.inl ⟨rfl, ho.good_leave (hb.good H)⟩
  | inr s1 =>
    obtain ⟨q1, H1, hw⟩ := ho.good_switch (hb.good H)
    obtain ⟨s2, q2, h3, M2, W⟩ := H1.mid.doScheduler hw (hz s1 hs)
    have hn : next s a = s2 := by
      rw [next, step_eq, hs]
      exact congrArg (·.getD s) h3
    rw [hn]
    exact Or.inr ⟨s1, q1, q2, rfl, H1, H1.switch M2 W, W⟩

/-- **The rule for invariants.** What is kept by the part of a step before `do_scheduler` and by
`do_scheduler` itself holds all along a run. -/
theorem run_keeps {Ok : Kernel → Act → Prop} {J : Kernel → Queues → Prop}
    (hk : ∀ s a, Ok s a → NoKill s a)
    (hseg : ∀ s q a r, Good none s q → Alive s → J s q → Enabled s a → Ok s a → segment s a = some r →
      ∃ q1, Rings (r.elim id id).links q1 ∧ J (r.elim id id) q1)
    (hsw : ∀ c s1 s2 q1 q2, Good (some c) s1 q1 → Switched c s1 s2 q1 q2 → J s1 q1 → J s2 q2)
    (h0 : ∃ q, Good none s q ∧ Alive s ∧ J s q) (hv : Run.Valid next (Steps Ok) s as) :
    ∃ q, Good none (Run.run next s as) q ∧ Alive (Run.run next s as) ∧ J (Run.run next s as) q := by
  refine hv.inv (I := fun s => ∃ q, Good none s q ∧ Alive s ∧ J s q) (fun s a hI hok => ?_) h0
  obtain ⟨q, H, A, hJ⟩ := hI
  obtain ⟨he, hn, hok⟩ := hok
  have hnk := hk s a hok
  have hs := next_eq hn
  have A' := step_alive H A he hnk hs
  rw [step_eq] at hs
  obtain ⟨r, h1, -⟩ := Option.bind_eq_some_iff.1 hs
  obtain ⟨q1, hr1, hJ1⟩ := hseg s q a r H A hJ he hok h1
  rcases segment_next H A he hnk h1 with ⟨rfl, q', H'⟩ | ⟨s1, q', q2, rfl, H', H2, W⟩
  · obtain rfl := H'.mid.rings.unique hr1
    exact ⟨q', H', A', hJ1⟩
  · obtain rfl := H'.mid.rings.unique hr1
    exact ⟨q2, H2, A', hsw _ _ _ _ _ H' W hJ1⟩

/-- The rule for runs from the start. -/
theorem run_inv {Ok : Kernel → Act → Prop} {J : Kernel → Queues → Prop}
    (hk : ∀ s a, Ok s a → NoKill s a)
    (hseg : ∀ s q a r, Good none s q → Alive s → J s q → Enabled s a → Ok s a → segment s a = some r →
      ∃ q1, Rings (r.elim id id).links q1 ∧ J (r.elim id id) q1)
    (hsw : ∀ c s1 s2 q1 q2, Good (some c) s1 q1 → Switched c s1 s2 q1 q2 → J s1 q1 → J s2 q2)
    (h0 : Start s) (hJ : J s fun _ => []) (hv : Run.Valid next (Steps Ok) s as) :
    ∃ q, Good none (Run.run next s as) q ∧ Alive (Run.run next s as) ∧ J (Run.run next s as) q :=
  run_keeps hk hseg hsw ⟨_, h0.good, h0.alive, hJ⟩ hv

/-- The queues that the pointers form, and how they agree with the statuses. -/
structure QueuesAgree (s : Kernel) (q : Queues) : Prop where
  circular : ∀ h, s.links.Seg (.inr h) (q h) (.inr h)
  nodup : ∀ h, (q h).Nodup
  one : ∀ t h h', t ∈ q h → t ∈ q h' → h = h'
  ready : ∀ t, t ∈ q .ready ↔ (s.pcb t).status = .ready
  blocked : ∀ t, (∃! h, h ≠ .ready ∧ t ∈ q h) ↔ (s.pcb t).status = .blocked
  none : ∀ t, (s.pcb t).status = .running ∨ (s.pcb t).status = .exited → ∀ h, t ∉ q h
  current : ∀ a b, s.current a = s.current b → a = b
  exited : ∀ t, (s.pcb t).status = .exited → q (.wait t) = []

theorem Mid.queuesAgree (H : Mid none s q) : QueuesAgree s q where
  circular := H.rings.seg
  nodup := H.rings.nodup
  one := fun _ _ _ h h' => H.rings.disj h h'
  ready := fun _ => H.ready
  blocked := by
    intro t
    rw [← H.blocked]
    refine ⟨fun ⟨h, hh, _⟩ => ⟨h, hh⟩, fun ⟨h, hh⟩ => ⟨h, hh, fun h' hh' => ?_⟩⟩
    exact H.rings.disj hh'.2 hh.2
  none := by
    rintro t (h | h)
    · exact H.notMem (by simp [h]) (by simp [h])
    · exact H.notMem (by simp [h]) (by simp [h])
  current := fun _ _ h => H.inj h
  exited := fun _ h => H.exited h (by simp)

end RiscvKernel.Sched
