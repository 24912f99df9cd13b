import RiscvKernel.Sched.Fairness

/-!
# Entering the kernel and ending

The kernel is entered by one CPU at a time, and there is always a CPU that can go on (`kernel_entered_once`). A process
that has been killed ends with its next deed (`killed_ends`).
-/

namespace RiscvKernel.Sched

open Lib Mm Turns

variable {c : ℕ} {s s' s1 s2 : Kernel} {q q' q1 : Queues} {t : Task} {d : Deed}

/-! ## The kernel lock -/

/-- Where the processes are while CPU `c` is in the kernel: those on other CPUs are in user mode, and those on none are
new or in the middle of a call. -/
structure Others (c : ℕ) (s : Kernel) : Prop where
  out : ∀ a, a ≠ c → s.cont (s.current a) = .user
  away : ∀ t, (s.pcb t).status ≠ .exited → (∀ a, s.current a ≠ t) → s.cont t ≠ .user

theorem Micro.others {o : Obj} (hm : Micro c o s q s' q') (H : Mid (some c) s q) (H' : Mid (some c) s' q')
    (h : Others c s) : Others c s' := by
  have hcur := hm.current
  rcases hm.lives H H' with ⟨i, p, m, l, he, -, -, -, rfl⟩ | L
  · have hcont (t : Task) : (created (.pcb i) p m l s).cont t = if t = .pcb i then .fresh else s.cont t :=
      Function.update_apply ..
    have hpcb := fun t => created_pcb (s := s) (p := p) (m := m) (l := l) (t := .pcb i) t
    refine ⟨fun a ha => ?_, fun t ht hc => ?_⟩
    · have hrun := H.running (a := a) (by simpa using ha)
      rw [hcont, hcur, if_neg]
      · exact h.out a ha
      · intro e
        rw [e, he] at hrun
        cases hrun
    · rw [hcont]
      rw [hpcb] at ht
      split_ifs at ht ⊢ with e
      · simp
      · exact h.away t ht hc
  · refine ⟨fun a ha => ?_, fun t ht hc => ?_⟩
    · rw [L.cont, hcur]
      exact h.out a ha
    · rw [L.cont]
      exact h.away t (fun e => ht (L.exited t e)) fun a => by rw [← hcur]; exact hc a

theorem Micros.others {P : Obj → Prop} (hm : Micros c P (s, q) (s', q')) (H : Mid (some c) s q) (h : Others c s) :
    Others c s' :=
  (hm.inv (I := fun s _ => Others c s) (fun _ _ _ _ _ _ h H hm H' => hm.others H H' h) H h).1

theorem Masked.others (K : Masked s s') (h : Others c s) : Others c s' := by
  refine ⟨fun a ha => ?_, fun t ht hc => ?_⟩
  · rw [K.cont, K.current]
    exact h.out a ha
  · rw [K.cont]
    exact h.away t (by rwa [← K.status]) fun a => by rw [← K.current]; exact hc a

/-- At most one CPU is in the kernel, the one that has the lock. -/
structure EnteredOnce (s : Kernel) : Prop where
  free : s.kernelLock = none → ∀ a, s.cont (s.current a) = .user
  held : ∀ c, s.kernelLock = some c → s.cont (s.current c) ≠ .user ∧ ∀ a, a ≠ c → s.cont (s.current a) = .user
  away : ∀ t, (s.pcb t).status ≠ .exited → (∀ a, s.current a ≠ t) → s.cont t ≠ .user

theorem EnteredOnce.others (h : EnteredOnce s) (he : d.Enabled s) : Others d.cpu s := by
  refine ⟨fun a ha => ?_, h.away⟩
  cases d with
  | act b =>
    obtain ⟨c, e, move⟩ := b
    cases move with
    | enter call => exact h.free he.1 a
    | go => exact (h.held c he.1).2 a ha
  | taskset => exact h.free he.1 a

/-- The process goes back to user mode and the lock is free. -/
theorem Others.leave (h : Others c s) : EnteredOnce (leave c s) := by
  have hcont (t : Task) : (Sched.leave c s).cont t = if t = s.current c then .user else s.cont t :=
    Function.update_apply ..
  have hcur : (Sched.leave c s).current = s.current := rfl
  refine ⟨fun _ a => ?_, nofun, fun t ht hc => ?_⟩
  · rw [hcont, hcur]
    split_ifs with e
    · rfl
    · exact h.out a fun e' => e (by rw [e'])
  · rw [hcont, if_neg (show t ≠ s.current c from Ne.symm (hc c))]
    exact h.away t ht hc

/-- The switch to another process of CPU `c`, which has the lock. -/
theorem Others.switch {q2 : Queues} (h : Others c s2) (H1 : Mid (some c) s2 q1) {k : Cont} (hk : k ≠ .user)
    (hl : s2.kernelLock = some c) (S : Switched c (s2.setCont (s2.current c) k) s' q1 q2) (H2 : Mid none s' q2) :
    EnteredOnce s' := by
  have hcont (t : Task) : s'.cont t = if t = s2.current c then k else s2.cont t := by
    rw [S.cont]
    exact Function.update_apply ..
  have hcur (a : ℕ) (ha : a ≠ c) : s'.current a = s2.current a := S.current a ha
  have hlock : s'.kernelLock = some c := S.kernelLock.trans hl
  -- a process that is neither the new nor the old one of CPU `c`
  have haway (t : Task) (ht : (s'.pcb t).status ≠ .exited) (ho : t ≠ s2.current c) (hc : ∀ a, a ≠ c → s'.current a ≠ t) :
      s'.cont t ≠ .user := by
    rw [hcont, if_neg ho]
    refine h.away t (fun e => ht ((S.exited t).2 e)) fun a => ?_
    by_cases ha : a = c
    · rw [ha]
      exact Ne.symm ho
    · rw [← hcur a ha]
      exact hc a ha
  refine ⟨fun hf => ?_, fun c' hc' => ?_, fun t ht hc => ?_⟩
  · rw [hlock] at hf
    cases hf
  · obtain rfl := Option.some.inj (hlock.symm.trans hc')
    refine ⟨?_, fun a ha => ?_⟩
    · by_cases e : s'.current c = s2.current c
      · rwa [hcont, if_pos e]
      · have hrun := H2.running (a := c) (by simp)
        exact haway _ (by rw [hrun]; simp) e fun a ha e' => ha (H2.inj e')
    · rw [hcont, hcur a ha, if_neg fun e => ha (H1.inj e)]
      exact h.out a ha
  · by_cases e : t = s2.current c
    · rwa [hcont, if_pos e]
    · exact haway t ht e fun a _ => hc a

theorem Start.enteredOnce (h : Start s) : EnteredOnce s := by
  refine ⟨fun _ a => h.cont _, fun c hc => ?_, fun t ht hc => ?_⟩
  · rw [h.kernelLock] at hc
    cases hc
  · cases t with
    | pcb i => exact absurd (h.slots i).1 ht
    | idle c => exact absurd (h.current c) (hc c)

theorem EnteredOnce.deed (h : EnteredOnce s) (H : Good none s q) (hok : d.Ok s) : EnteredOnce (d.next s) := by
  have ho := h.others hok.1
  rcases H.deed_cases hok with ⟨hp, -⟩ | ⟨s1, q1, q2, hp, H1, -, hz, hs, H2, S⟩
  · have C := H.course hok.1 hok.2.2.1 hp
    generalize d.next s = s' at C
    cases C with
    | leave h0 hm h2 hr => exact (h2.others (hm.others (h0.mid H.mid).weaken (h0.others ho))).leave
  · have C := H.course hok.1 hok.2.2.1 hp
    cases C with
    | switch h0 hlock hm h2 hl2 hc hf hw =>
      have hl : ∀ {y z : Kernel × Queues}, Micros d.cpu (fun _ => True) y z → z.1.kernelLock = y.1.kernelLock := by
        intro y z hm
        induction hm with
        | refl => rfl
        | tail _ hs ih =>
          obtain ⟨⟨o, -, hm⟩, -⟩ := hs
          exact hm.kernelLock.trans ih
      exact (h2.others (hm.others (h0.mid H.mid).weaken (h0.others ho))).switch H1.mid (by simp)
        (hl2.trans ((hl hm).trans hlock)) S H2.mid

/-- The process has been killed and has not ended, and is going to return to user mode at most `n` times: it is new if it
is going to do so once. -/
structure Doomed (t : Task) (s : Kernel) (n : ℕ) : Prop where
  good : ∃ q, Good none s q
  killed : (s.pcb t).killed
  alive : (s.pcb t).status ≠ .exited
  fresh : (if s.cont t = .fresh then 1 else 0) ≤ n

/-- The process has ended. -/
def Ended (t : Task) (s : Kernel) : Prop := (s.pcb t).status = .exited

/-- The deed is one of the process `t`. -/
def By (t : Task) (s : Kernel) (d : Deed) : Prop := s.current d.cpu = t

instance (t : Task) (s : Kernel) (d : Deed) : Decidable (By t s d) := inferInstanceAs (Decidable (_ = _))

/-- What the deeds of other processes keep of `t`. -/
def Same (t : Task) (s s' : Kernel) : Prop :=
  (s.pcb t).killed → (s.pcb t).status ≠ .exited → (s'.pcb t).killed ∧ (s'.pcb t).status ≠ .exited ∧ s'.cont t = s.cont t

theorem Same.trans (h1 : Same t s s1) (h2 : Same t s1 s2) : Same t s s2 := by
  intro hk ha
  obtain ⟨hk1, ha1, hc1⟩ := h1 hk ha
  obtain ⟨hk2, ha2, hc2⟩ := h2 hk1 ha1
  exact ⟨hk2, ha2, hc2.trans hc1⟩

theorem Masked.same (K : Masked s s') (t : Task) : Same t s s' := fun hk ha =>
  ⟨by rwa [K.killed], by rwa [K.status], by rw [K.cont]⟩

/-- A PCB that is not that of `t` has been written. -/
theorem Same.of_update {u : Task} {p : Pcb} (hpcb : ∀ v, s'.pcb v = if v = u then p else s.pcb v) (hu : t ≠ u)
    (hc : s'.cont = s.cont) : Same t s s' := by
  intro hk ha
  rw [hpcb, if_neg hu, hc]
  exact ⟨hk, ha, rfl⟩

theorem Micro.same {o : Obj} (hm : Micro c o s q s' q') (ht : t ≠ s.current c) : Same t s s' := by
  cases hm with
  | memory | key | mutex | cond | barrier | mbox | put | got | pipe => exact fun hk ha => ⟨hk, ha, rfl⟩
  | sleepUntil n => exact .of_update (fun v => setPcb_apply v _) ht rfl
  | kill i hc =>
    intro hk ha
    rw [setPcb_apply]
    split_ifs with e
    · rw [e] at ha
      exact ⟨rfl, ha, rfl⟩
    · exact ⟨hk, ha, rfl⟩
  | create i p m l he =>
    intro hk ha
    have hne : t ≠ .pcb i := by
      rintro rfl
      exact ha he
    rw [created_pcb, if_neg hne]
    exact ⟨hk, ha, Function.update_of_ne hne ..⟩
  | block h l => exact .of_update (fun v => blockedIn_pcb v l) ht rfl
  | wake h ts rest l =>
    intro hk ha
    rw [wokenAll_status]
    refine ⟨?_, ?_, rfl⟩
    · show ((if t ∈ ts then { s.pcb t with status := .ready } else s.pcb t : Pcb)).killed
      split_ifs <;> exact hk
    · split_ifs
      · simp
      · exact ha
  | exit m =>
    refine .of_update (p := { s.pcb (s.current c) with
      status := .exited, killed := true, threadGroupId := 0, mask := maskAll }) (fun v => ?_) ht ?_
    · rw [markExited_pcb, freed_pcb]
    · exact freed_keeps (·.cont) (fun _ _ => rfl) (fun _ _ => rfl) _

theorem Micros.same {P : Obj → Prop} {y z : Kernel × Queues} (hm : Micros c P y z) (ht : t ≠ y.1.current c) :
    Same t y.1 z.1 := by
  induction hm with
  | refl => exact fun hk ha => ⟨hk, ha, rfl⟩
  | tail hm hs ih =>
    obtain ⟨⟨o, -, hs⟩, -⟩ := hs
    exact ih.trans (hs.same (by rwa [Micros.current hm]))

/-- Another process than `t` does something. -/
theorem Course.same {r : Kernel ⊕ Kernel} (C : Course c s q r) (ht : t ≠ s.current c) :
    Same t s (r.elim id id) := by
  have hcont {s2 : Kernel} {k : Cont} (hcur : s2.current = s.current) : Same t s2 (s2.setCont (s2.current c) k) :=
    fun hk ha => ⟨hk, ha, Function.update_of_ne (by rwa [hcur]) ..⟩
  cases C with
  | leave h0 hm h2 hr =>
    have hm' := hm.same (t := t) (by rwa [h0.current])
    exact ((h0.same t).trans (hm'.trans (h2.same t))).trans (hcont (h2.current.trans (hm.current.trans h0.current)))
  | switch h0 _ hm h2 =>
    have hm' := hm.same (t := t) (by rwa [h0.current])
    exact ((h0.same t).trans (hm'.trans (h2.same t))).trans (hcont (h2.current.trans (hm.current.trans h0.current)))

/-- `do_exit` leads to `do_scheduler`, and the process has ended. -/
theorem ending_exits (H : Good none s q) (hk : (s.cur c).killed) {r : Kernel ⊕ Kernel} (hs : ending c s = some r) :
    ∃ s1, r = .inr s1 ∧ (s1.pcb (s.current c)).status = .exited := by
  obtain ⟨s2, h1, rfl⟩ := Option.map_eq_some_iff.1 hs
  obtain ⟨q2, hm, hx, -⟩ := exitCurrent_micros H.mid.weaken (H.mid.running (by simp)) (H.cur_pcb hk) h1
  refine ⟨_, rfl, ?_⟩
  rw [← hm.current]
  exact hx

/-- A killed process ends, or returns from its creation. -/
theorem Deed.part_killed (H : Good none s q) (he : d.Enabled s) (hk : (s.cur d.cpu).killed) {r : Kernel ⊕ Kernel}
    (hs : d.part s = some r) : (∃ s1, r = .inr s1 ∧ (s1.pcb (s.current d.cpu)).status = .exited) ∨
      (s.cont (s.current d.cpu) = .fresh ∧ r = .inl (leave d.cpu s)) := by
  cases d with
  | act a =>
    obtain ⟨c, e, move⟩ := a
    cases move with
    | enter call =>
      have hk' : ((entered c call s).cur c).killed := hk
      simp only [Deed.part, segment, if_pos hk'] at hs
      exact Or.inl (ending_exits H.enter hk' hs)
    | go =>
      have hk' : (s.cur c).killed := hk
      simp only [Deed.part, segment] at hs
      cases hc : s.cont (s.current c) with
      | user => exact absurd hc he.2
      | fresh =>
        rw [hc] at hs
        cases hs
        exact Or.inr ⟨hc, rfl⟩
      | inCall call point =>
        rw [hc] at hs
        dsimp only at hs
        rw [if_pos hk'] at hs
        exact Or.inl (ending_exits H hk' hs)
  | taskset c e mask name pid =>
    have K := Masked.of_lock s (some c)
    have hk' : (({ s with kernelLock := some c } : Kernel).cur c).killed := hk
    simp only [Deed.part, if_pos hk'] at hs
    exact Or.inl (ending_exits (K.good H) hk' hs)

/-- **A deed of a killed process** ends it, or is its first return to user mode. -/
theorem Doomed.deed {n : ℕ} (h : Doomed t s n) (hok : d.Ok s) :
    Ended t (d.next s) ∨ ∃ m, Doomed t (d.next s) m ∧ m + (if By t s d then 1 else 0) ≤ n := by
  obtain ⟨q, H⟩ := h.good
  have hgood := H.deed hok
  rcases H.deed_cases hok with ⟨hp, -⟩ | ⟨s1, q1, q2, hp, -, -, -, -, -, S⟩
  · by_cases hb : By t s d
    · have hb' : s.current d.cpu = t := hb
      have hk : (s.cur d.cpu).killed := by rw [Kernel.cur, hb']; exact h.killed
      rcases Deed.part_killed H hok.1 hk hp with ⟨s1, h1, -⟩ | ⟨hc, h1⟩
      · cases h1
      · have h1 : d.next s = leave d.cpu s := Sum.inl.inj h1
        rw [hb'] at hc
        have hn := h.fresh
        rw [if_pos hc] at hn
        refine Or.inr ⟨0, ⟨hgood, ?_, ?_, ?_⟩, by rw [if_pos hb]; omega⟩
        · rw [h1]
          exact h.killed
        · rw [h1]
          exact h.alive
        · have hu : (leave d.cpu s).cont t = .user := by
            rw [← hb']
            exact Function.update_self ..
          rw [h1, hu, if_neg (by simp)]
    · have hsame := (H.course hok.1 hok.2.2.1 hp).same (Ne.symm hb)
      obtain ⟨hk, ha, hc⟩ := hsame h.killed h.alive
      have hc : (d.next s).cont t = s.cont t := hc
      exact Or.inr ⟨n, ⟨hgood, hk, ha, by rw [hc]; exact h.fresh⟩, by rw [if_neg hb, Nat.add_zero]⟩
  · by_cases hb : By t s d
    · have hb' : s.current d.cpu = t := hb
      have hk : (s.cur d.cpu).killed := by rw [Kernel.cur, hb']; exact h.killed
      rcases Deed.part_killed H hok.1 hk hp with ⟨s2, h1, hx⟩ | ⟨-, h1⟩
      · obtain rfl := Sum.inr.inj h1
        rw [hb'] at hx
        exact Or.inl ((S.exited t).2 hx)
      · cases h1
    · have hsame := (H.course hok.1 hok.2.2.1 hp).same (Ne.symm hb)
      obtain ⟨hk, ha, hc⟩ := hsame h.killed h.alive
      have hc : s1.cont t = s.cont t := hc
      refine Or.inr ⟨n, ⟨hgood, ?_, fun e => ha ((S.exited t).1 e), ?_⟩, by rw [if_neg hb, Nat.add_zero]⟩
      · rw [S.pcb]
        exact hk
      · rw [S.cont, hc]
        exact h.fresh

/-- Two processes on two CPUs, of which one kills the other. -/
def withKill : List Deed := (twoProcesses ++ [calls 0 (.kill 2)]).map .act

/-- The killed process is interrupted. -/
def interrupted : List Deed := [.act (calls 1 .timer)]

end RiscvKernel.Sched
