import RiscvKernel.Sched.Agreement

/-!
# Steps and the objects they are about

In a run in which nobody is killed every step belongs to one call. The step leaves alone what the call is
not about (`Apart`), and a process that has entered a call stays in it until it returns (`Bracketed`).
-/

namespace RiscvKernel.Sched

open Lib Mm

variable {c : ℕ} {e : Env} {P : Obj → Prop} {o : Obj} {ob : Obj} {s s' s1 s2 : Kernel}
  {q q' q1 q2 : Queues} {t : Task} {call : Call} {point : Point} {a : Act} {as : List Act} {out : Out}
  {r : Kernel ⊕ Kernel}

/-! ## The parts of a step -/

theorem Good.notMem (H : Good none s q) (c : ℕ) (h : Head) : s.current c ∉ q h := by
  have hr : (s.pcb (s.current c)).status = .running := H.mid.running (by simp)
  exact H.mid.notMem (by simp [hr]) (by simp [hr]) h

theorem segment_enter (H : Good none s q) (A : Alive s) (hs : segment s ⟨c, e, .enter call⟩ = some r) :
    (syscall c e (entered c call s) call).bind (following c call) = some r := by
  have hk : ((entered c call s).cur c).killed = false := A.cur H c
  simp only [segment] at hs
  rwa [if_neg (by rw [hk]; simp)] at hs

theorem segment_go (H : Good none s q) (A : Alive s) (hc : s.cont (s.current c) = .inCall call point)
    (hs : segment s ⟨c, e, .go⟩ = some r) : (resume c e s call point).bind (following c call) = some r := by
  simp only [segment, hc] at hs
  rwa [if_neg (by rw [A.cur H c]; simp)] at hs

/-- How a process that nobody kills goes on in a call. -/
inductive Went (c : ℕ) (call : Call) (s : Kernel) (q : Queues) : Kernel ⊕ Kernel → Prop
  | ret {s1 : Kernel} {q1 : Queues} (hm : Micros c call.about (s, q) (s1, q1)) (v : ℤ) :
    Went c call s q (.inl (leave c (s1.addLog (.ret (s1.current c) call v))))
  | sched {s1 : Kernel} {q1 : Queues} (hm : Micros c call.about (s, q) (s1, q1)) (point : Point) :
    Went c call s q (.inr (s1.setCont (s1.current c) (.inCall call point)))
  | exit {s1 : Kernel} {q1 : Queues} (hm : Micros c (reach (some call)) (s, q) (s1, q1)) :
    Went c call s q (.inr (s1.setCont (s1.current c) (.inCall .exit (.ret 0))))

theorem Part.went (hp : Part c call s q out s1) (M : Mid (some c) s q)
    (ht : out = .exit → ∃ i, s.current c = .pcb i) (hs : following c call (out, s1) = some r) :
    Went c call s q r := by
  obtain ⟨q1, hm, hst⟩ := hp.ends
  cases out with
  | ret v =>
    cases hs
    exact .ret hm v
  | sched point =>
    cases hs
    exact .sched hm point
  | exit =>
    have hr : (s1.cur c).status = .running := hst.resolve_right fun h => by simp at h
    have hcur : s1.current = s.current := hm.current
    obtain ⟨s2, h2, rfl⟩ := Option.map_eq_some_iff.1 hs
    obtain ⟨q2, hm2, -, -⟩ := exitCurrent_micros (hm.mid M) hr (by rw [hcur]; exact ht rfl) h2
    exact .exit ((hm.mono fun _ h => ⟨call, rfl, Or.inl h⟩).trans
      (hm2.mono fun _ h => ⟨call, rfl, Or.inr h⟩))

/-- A step begins a call, goes on in one or lets a new process run. -/
theorem segment_went (H : Good none s q) (A : Alive s) (he : Enabled s a) (hx : ExecOk s a)
    (hs : segment s a = some r) :
    (∃ call, a.move = .enter call ∧ s.cont (s.current a.cpu) = .user ∧
      Went a.cpu call (entered a.cpu call s) q r) ∨
    (∃ call point, a.move = .go ∧ s.cont (s.current a.cpu) = .inCall call point ∧
      Went a.cpu call s q r) ∨
    (a.move = .go ∧ s.cont (s.current a.cpu) = .fresh ∧ r = .inl (leave a.cpu s)) := by
  obtain ⟨c, e, move⟩ := a
  cases move with
  | enter call =>
    obtain ⟨-, hu, hm⟩ := he
    obtain ⟨⟨o, s1⟩, h1, h2⟩ := Option.bind_eq_some_iff.1 (segment_enter H A hs)
    have H0 : Good none (entered c call s) q := H.enter
    have B : Busy c (entered c call s) q := H0.busy (A.cur H c)
    have hex : ∀ name, call = .exec name → (doExec c name (entered c call s)).1 ≠ 0 := by
      rintro name rfl
      rw [doExec_entered]
      exact hx name rfl
    exact Or.inl ⟨call, rfl, hu, (syscall_part B hm H0.processId hex h1).went B.mid
      (by rintro rfl; exact syscall_exit hm h1) h2⟩
  | go =>
    cases hc : s.cont (s.current c) with
    | user =>
      simp only [segment, hc] at hs
      cases hs
    | fresh =>
      simp only [segment, hc] at hs
      cases hs
      exact Or.inr (Or.inr ⟨rfl, rfl, rfl⟩)
    | inCall call point =>
      obtain ⟨⟨o, s1⟩, h1, h2⟩ := Option.bind_eq_some_iff.1 (segment_go H A hc hs)
      obtain ⟨hm, hf⟩ := H.cont _ call point hc
      have B : Busy c s q := H.busy (A.cur H c)
      exact Or.inr (Or.inl ⟨call, point, rfl, rfl, (resume_part B hm hf h1).went B.mid
        (by rintro rfl; exact resume_exit hm hf h1) h2⟩)

/-! ## What a call is not about -/

/-- The event is the entry into a call or the return from it. -/
def Event.ofCall : Event → Bool
  | .enter _ _ => true
  | .ret _ _ _ => true
  | _ => false

/-- What a step of CPU `c` leaves alone when its call is not about `ob`. -/
structure Apart (ob : Obj) (c : ℕ) (s s' : Kernel) (q q' : Queues) : Prop where
  current : s'.current = s.current
  exited : ∀ t, t ≠ s.current c → (s.pcb t).status ≠ .exited → (s'.pcb t).status ≠ .exited
  cont : ∀ t, t ≠ s.current c → (s.pcb t).status ≠ .exited → s'.cont t = s.cont t
  queue : ∀ h, h.obj = ob → h ≠ .ready → q' h = q h
  condition : ∀ i, ob = .cond i → s'.conditions i = s.conditions i
  barrier : ∀ i, ob = .barrier i → s'.barriers i = s.barriers i
  mailbox : ∀ i, ob = .mbox i → s'.mailboxes i = s.mailboxes i
  pipe : ∀ i, ob = .pipe i → s'.pipes i = s.pipes i
  log : ∃ es, s'.log = s.log ++ es ∧ ∀ t call, ∀ ev ∈ es,
    (ev = .enter t call ∨ ∃ v, ev = .ret t call v) → ¬ call.about ob

theorem Apart.refl : Apart ob c s s q q where
  current := rfl
  exited := fun _ _ h => h
  cont := fun _ _ _ => rfl
  queue := fun _ _ _ => rfl
  condition := fun _ _ => rfl
  barrier := fun _ _ => rfl
  mailbox := fun _ _ => rfl
  pipe := fun _ _ => rfl
  log := ⟨[], (List.append_nil _).symm, by simp⟩

theorem Apart.trans (h1 : Apart ob c s s1 q q1) (h2 : Apart ob c s1 s2 q1 q2) :
    Apart ob c s s2 q q2 := by
  have hne : ∀ t, t ≠ s.current c → t ≠ s1.current c := fun t ht => by rwa [h1.current]
  obtain ⟨es1, hl1, he1⟩ := h1.log
  obtain ⟨es2, hl2, he2⟩ := h2.log
  refine ⟨h2.current.trans h1.current, fun t ht hx => ?_, fun t ht hx => ?_, fun h ho hr => ?_,
    fun i hi => ?_, fun i hi => ?_, fun i hi => ?_, fun i hi => ?_, es1 ++ es2, ?_, ?_⟩
  · exact h2.exited t (hne t ht) (h1.exited t ht hx)
  · exact (h2.cont t (hne t ht) (h1.exited t ht hx)).trans (h1.cont t ht hx)
  · exact (h2.queue h ho hr).trans (h1.queue h ho hr)
  · exact (h2.condition i hi).trans (h1.condition i hi)
  · exact (h2.barrier i hi).trans (h1.barrier i hi)
  · exact (h2.mailbox i hi).trans (h1.mailbox i hi)
  · exact (h2.pipe i hi).trans (h1.pipe i hi)
  · rw [hl2, hl1, List.append_assoc]
  · intro t call ev hev
    rcases List.mem_append.1 hev with hev | hev
    · exact he1 t call ev hev
    · exact he2 t call ev hev

/-- Small steps add no events of calls. -/
theorem Micro.events (hm : Micro c o s q s' q') :
    ∃ es, s'.log = s.log ++ es ∧ ∀ ev ∈ es, ev.ofCall = false := by
  cases hm with
  | memory | sleepUntil | kill | key | mutex | cond | barrier | mbox | pipe =>
    exact ⟨[], (List.append_nil _).symm, by simp⟩
  | create i p m l => exact ⟨[.create (.pcb i)], rfl, by simp [Event.ofCall]⟩
  | put i m bs => exact ⟨[.put i (s.current c) bs], rfl, by simp [Event.ofCall]⟩
  | got i m bs => exact ⟨[.got i (s.current c) bs], rfl, by simp [Event.ofCall]⟩
  | block h l => exact ⟨[.block (s.current c) h], rfl, by simp [Event.ofCall]⟩
  | wake h ts rest l => exact ⟨ts.map .wake, rfl, by simp [Event.ofCall]⟩
  | exit m hr =>
    have hf : ∃ es, (freed (s.current c) m s).log = s.log ++ es ∧ ∀ ev ∈ es, ev.ofCall = false := by
      unfold freed
      split_ifs
      · exact ⟨[.freeAll _ _], rfl, by simp [Event.ofCall]⟩
      · exact ⟨[], (List.append_nil _).symm, by simp⟩
    obtain ⟨es, h1, h2⟩ := hf
    refine ⟨es ++ [.exit (s.current c)], ?_, ?_⟩
    · show (freed (s.current c) m s).log ++ [.exit (s.current c)] = _
      rw [h1, List.append_assoc]
    · intro ev hev
      rcases List.mem_append.1 hev with hev | hev
      · exact h2 ev hev
      · rw [List.mem_singleton.1 hev]
        rfl

/-- Small steps move only new processes to another place. -/
theorem Micro.cont_eq (hm : Micro c o s q s' q') (t : Task) :
    s'.cont t = s.cont t ∨ (s.pcb t).status = .exited ∧ s'.cont t = .fresh := by
  cases hm with
  | memory | sleepUntil | kill | key | mutex | cond | barrier | mbox | put | got | pipe | block | wake =>
    exact Or.inl rfl
  | create i p m l he =>
    show Function.update s.cont (.pcb i) .fresh t = _ ∨ _ ∧ Function.update s.cont (.pcb i) .fresh t = _
    by_cases h : t = .pcb i
    · subst h
      exact Or.inr ⟨he, Function.update_self ..⟩
    · exact Or.inl (Function.update_of_ne h ..)
  | exit m => exact Or.inl (congrFun (freed_keeps (·.cont) (fun _ _ => rfl) (fun _ _ => rfl) _) t)

theorem Micro.exits_other (hm : Micro c o s q s' q') (ht : t ≠ s.current c)
    (hx : (s.pcb t).status ≠ .exited) : (s'.pcb t).status ≠ .exited := by
  by_cases ho : o = .exit
  · cases hm with
    | exit m hr =>
      rw [markExited_pcb, freed_pcb, if_neg ht]
      exact hx
    | block k => cases k <;> cases ho
    | wake k => cases k <;> cases ho
    | _ => cases ho
  · exact hm.exits ho hx

theorem Micro.apart (hm : Micro c o s q s' q') (ho : o ≠ ob) : Apart ob c s s' q q' := by
  obtain ⟨es, hl, he⟩ := hm.events
  refine ⟨hm.current, fun t ht => hm.exits_other ht, fun t _ hx => ?_, fun h hob hr => ?_,
    fun i hi => hm.conditions (hi ▸ ho), fun i hi => hm.barriers (hi ▸ ho),
    fun i hi => hm.mailboxes (hi ▸ ho), fun i hi => hm.pipes (hi ▸ ho), es, hl, ?_⟩
  · exact (hm.cont_eq t).resolve_right fun h => hx h.1
  · exact hm.queue (hob ▸ ho) hr
  · rintro t call ev hev (rfl | ⟨v, rfl⟩)
    · cases he _ hev
    · cases he _ hev

theorem Micros.apart (hm : Micros c P (s, q) (s', q')) (hP : ¬ P ob) : Apart ob c s s' q q' := by
  have h : ∀ y z, Micros c P y z → Apart ob c y.1 z.1 y.2 z.2 := by
    intro y z hm
    induction hm with
    | refl => exact .refl
    | @tail z w _ hs ih =>
      obtain ⟨⟨o, ho, hm⟩, -⟩ := hs
      have hcur : z.1.current = y.1.current := ih.current
      exact ih.trans (hm.apart fun e => hP (e ▸ ho))
  exact h _ _ hm

theorem apart_entered (h : ¬ call.about ob) : Apart ob c s (entered c call s) q q :=
  { (Apart.refl : Apart ob c s s q q) with
    log := ⟨[.enter (s.current c) call], rfl, by
      rintro t call' ev hev h'
      obtain rfl := List.mem_singleton.1 hev
      rcases h' with h' | ⟨v, h'⟩
      · cases h'
        exact h
      · cases h'⟩ }

theorem apart_setCont (k : Cont) : Apart ob c s (s.setCont (s.current c) k) q q :=
  { (Apart.refl : Apart ob c s s q q) with
    cont := fun _ ht _ => Function.update_of_ne ht .. }

theorem apart_setLock (k : Option ℕ) : Apart ob c s { s with kernelLock := k } q q :=
  { (Apart.refl : Apart ob c s s q q) with }

theorem apart_ret (h : ¬ call.about ob) (v : ℤ) :
    Apart ob c s (s.addLog (.ret (s.current c) call v)) q q :=
  { (Apart.refl : Apart ob c s s q q) with
    log := ⟨[.ret (s.current c) call v], rfl, by
      rintro t call' ev hev h'
      obtain rfl := List.mem_singleton.1 hev
      rcases h' with h' | ⟨v', h'⟩
      · cases h'
      · cases h'
        exact h⟩ }

theorem apart_leave : Apart ob c s (leave c s) q q := (apart_setCont .user).trans (apart_setLock none)

/-- **A step leaves alone** what its call is not about. -/
theorem Went.apart (hw : Went c call s q r) (M : Mid (some c) s q) (h : ¬ call.about ob)
    (hx : ¬ Call.exit.about ob) :
    ∃ q1, Rings (r.elim id id).links q1 ∧ Apart ob c s (r.elim id id) q q1 := by
  have hn : ¬ reach (some call) ob := by
    rintro ⟨k, hk, h'⟩
    cases hk
    exact h'.elim h hx
  cases hw with
  | ret hm v =>
    have h1 := (hm.apart h).trans (apart_ret h v)
    exact ⟨_, (hm.mid M).rings, h1.trans apart_leave⟩
  | sched hm point => exact ⟨_, (hm.mid M).rings, (hm.apart h).trans (apart_setCont _)⟩
  | exit hm => exact ⟨_, (hm.mid M).rings, (hm.apart hn).trans (apart_setCont _)⟩

/-- The entry into the kernel that a step begins with. -/
def Act.entry (s : Kernel) (a : Act) : List Event :=
  match a.move with
  | .enter call => [.enter (s.current a.cpu) call]
  | .go => []

theorem Micros.events (hm : Micros c P (s, q) (s', q')) :
    ∃ es, s'.log = s.log ++ es ∧ ∀ ev ∈ es, ev.ofCall = false := by
  have h : ∀ y z, Micros c P y z → ∃ es, z.1.log = y.1.log ++ es ∧ ∀ ev ∈ es, ev.ofCall = false := by
    intro y z hm
    induction hm with
    | refl => exact ⟨[], (List.append_nil _).symm, by simp⟩
    | tail _ hs ih =>
      obtain ⟨⟨o, -, hm⟩, -⟩ := hs
      obtain ⟨es1, h1, h2⟩ := ih
      obtain ⟨es2, h3, h4⟩ := hm.events
      refine ⟨es1 ++ es2, by rw [h3, h1, List.append_assoc], fun ev hev => ?_⟩
      exact (List.mem_append.1 hev).elim (h2 ev) (h4 ev)
  exact h _ _ hm

theorem Went.log (hw : Went c call s q r) :
    ∃ es, (r.elim id id).log = s.log ++ es ∧ ∀ t k, .enter t k ∉ es := by
  cases hw with
  | @ret s1 _ hm v =>
    obtain ⟨es, h1, h2⟩ := hm.events
    refine ⟨es ++ [.ret (s1.current c) call v], ?_, fun t k h => ?_⟩
    · show s1.log ++ _ = _
      rw [h1, List.append_assoc]
    · have h : .enter t k ∈ es := by simpa using h
      cases h2 _ h
  | sched hm point =>
    obtain ⟨es, h1, h2⟩ := hm.events
    exact ⟨es, h1, fun t k h => by cases h2 _ h⟩
  | exit hm =>
    obtain ⟨es, h1, h2⟩ := hm.events
    exact ⟨es, h1, fun t k h => by cases h2 _ h⟩

/-- A step enters the kernel at most once. -/
theorem segment_log (H : Good none s q) (A : Alive s) (he : Enabled s a) (hk : ExecOk s a)
    (hs : segment s a = some r) :
    ∃ es, (r.elim id id).log = s.log ++ (a.entry s ++ es) ∧ ∀ t k, .enter t k ∉ es := by
  rcases segment_went H A he hk hs with ⟨call, hm, -, hw⟩ | ⟨call, point, hm, -, hw⟩ | ⟨hm, -, rfl⟩
  · obtain ⟨es, h1, h2⟩ := hw.log
    refine ⟨es, h1.trans ?_, h2⟩
    rw [Act.entry, hm]
    exact List.append_assoc s.log _ _
  · obtain ⟨es, h1, h2⟩ := hw.log
    exact ⟨es, h1.trans (by rw [Act.entry, hm]; rfl), h2⟩
  · exact ⟨[], by rw [Act.entry, hm]; exact (List.append_nil _).symm, by simp⟩

/-- The call that a step belongs to. -/
def Act.callOf (s : Kernel) (a : Act) : Option Call :=
  match a.move with
  | .enter call => some call
  | .go =>
    match s.cont (s.current a.cpu) with
    | .inCall call _ => some call
    | _ => none

theorem segment_apart (H : Good none s q) (A : Alive s) (he : Enabled s a) (hk : ExecOk s a)
    (h : ∀ call, a.callOf s = some call → ¬ call.about ob) (hx : ¬ Call.exit.about ob)
    (hs : segment s a = some r) :
    ∃ q1, Rings (r.elim id id).links q1 ∧ Apart ob a.cpu s (r.elim id id) q q1 := by
  rcases segment_went H A he hk hs with ⟨call, hm, -, hw⟩ | ⟨call, point, hm, hc, hw⟩ | ⟨-, -, rfl⟩
  · have hn : ¬ call.about ob := h call (by rw [Act.callOf, hm])
    have H0 : Good none (entered a.cpu call s) q := H.enter
    obtain ⟨q1, h1, h2⟩ := hw.apart H0.mid.weaken hn hx
    exact ⟨q1, h1, (apart_entered hn).trans h2⟩
  · have hn : ¬ call.about ob := h call (by rw [Act.callOf, hm]; simp only [hc])
    exact hw.apart H.mid.weaken hn hx
  · exact ⟨q, H.mid.rings, apart_leave⟩

/-! ## Entry and return -/

/-- How often the process has entered the call. -/
def entries (call : Call) (t : Task) (log : List Event) : ℕ := log.count (.enter t call)

/-- The event is the return of the process from the call. -/
def Event.returns (call : Call) (t : Task) : Event → Bool
  | .ret u k _ => u = t ∧ k = call
  | _ => false

/-- How often the process has returned from the call. -/
def returns (call : Call) (t : Task) (log : List Event) : ℕ := log.countP (Event.returns call t)

theorem entries_append (log es : List Event) :
    entries call t (log ++ es) = entries call t log + entries call t es := List.count_append

theorem returns_append (log es : List Event) :
    returns call t (log ++ es) = returns call t log + returns call t es := List.countP_append

theorem entries_other {es : List Event} (h : ∀ ev ∈ es, ev.ofCall = false) : entries call t es = 0 :=
  List.count_eq_zero.2 fun hm => by cases h _ hm

theorem returns_other {es : List Event} (h : ∀ ev ∈ es, ev.ofCall = false) : returns call t es = 0 := by
  refine List.countP_eq_zero.2 fun ev hev => ?_
  have h := h ev hev
  cases ev with
  | ret => cases h
  | _ => simp [Event.returns]

/-- Nobody has returned more often than entered, and who is in a call has entered it once more than
returned. The process `x`, in the middle of a step, is in this call and may be anywhere. -/
structure Bracketed (x : Option (Task × Call)) (s : Kernel) : Prop where
  le : ∀ t call, call ≠ .exit → returns call t s.log ≤ entries call t s.log
  inCall : ∀ t call point, (∀ k, x ≠ some (t, k)) → call ≠ .exit → s.cont t = .inCall call point →
    returns call t s.log < entries call t s.log
  step : ∀ t call, x = some (t, call) → call ≠ .exit → returns call t s.log < entries call t s.log

theorem Start.bracketed (h : Start s) : Bracketed none s where
  le := fun t call _ => by rw [h.log]; rfl
  inCall := fun t call point _ _ hc => by rw [h.cont] at hc; cases hc
  step := by simp

theorem Bracketed.events {x : Option (Task × Call)} (B : Bracketed x s) {es : List Event}
    (hl : s'.log = s.log ++ es) (he : ∀ ev ∈ es, ev.ofCall = false)
    (hc : ∀ t, s'.cont t = s.cont t ∨ s'.cont t = .fresh) : Bracketed x s' := by
  have h1 : ∀ t call, entries call t s'.log = entries call t s.log := fun t call => by
    rw [hl, entries_append, entries_other he, Nat.add_zero]
  have h2 : ∀ t call, returns call t s'.log = returns call t s.log := fun t call => by
    rw [hl, returns_append, returns_other he, Nat.add_zero]
  refine ⟨fun t call hne => ?_, fun t call point hx hne h => ?_, fun t call hx hne => ?_⟩
  · rw [h1, h2]
    exact B.le t call hne
  · rw [h1, h2]
    rcases hc t with e | e <;> rw [e] at h
    · exact B.inCall t call point hx hne h
    · cases h
  · rw [h1, h2]
    exact B.step t call hx hne

theorem Micros.bracketed {x : Option (Task × Call)} (hm : Micros c P (s, q) (s', q'))
    (B : Bracketed x s) : Bracketed x s' := by
  have h : ∀ y z, Micros c P y z → Bracketed x y.1 → Bracketed x z.1 := by
    intro y z hm B
    induction hm with
    | refl => exact B
    | tail _ hs ih =>
      obtain ⟨⟨o, -, hm⟩, -⟩ := hs
      obtain ⟨es, hl, he⟩ := hm.events
      exact ih.events hl he fun t => (hm.cont_eq t).imp_right And.right
  exact h _ _ hm B

theorem Bracketed.entered (B : Bracketed none s) (c : ℕ) (call : Call) :
    Bracketed (some (s.current c, call)) (Sched.entered c call s) := by
  have h1 : ∀ t k, entries k t (Sched.entered c call s).log =
      entries k t s.log + entries k t [.enter (s.current c) call] := fun t k => entries_append _ _
  have h2 : ∀ t k, returns k t (Sched.entered c call s).log = returns k t s.log := fun t k =>
    (returns_append _ _).trans (Nat.add_zero _)
  refine ⟨fun t k hne => ?_, fun t k point hx hne h => ?_, fun t k hx hne => ?_⟩
  · rw [h1, h2]
    exact Nat.le_add_right_of_le (B.le t k hne)
  · rw [h1, h2]
    exact Nat.lt_add_right _ (B.inCall t k point (by simp) hne h)
  · cases hx
    have he : entries call (s.current c) [.enter (s.current c) call] = 1 := List.count_singleton_self
    rw [h1, h2, he]
    exact Nat.lt_succ_of_le (B.le _ _ hne)

theorem Bracketed.go (B : Bracketed none s) (hc : s.cont (s.current c) = .inCall call point) :
    Bracketed (some (s.current c, call)) s where
  le := B.le
  inCall := fun t k point _ => B.inCall t k point (by simp)
  step := fun t k hx hne => by
    cases hx
    exact B.inCall _ _ point (by simp) hne hc

/-- The step is over and the process `u` goes to another place. -/
theorem Bracketed.move {x : Option (Task × Call)} (B : Bracketed x s) {u : Task} {k : Cont}
    (hx : ∀ t call, x = some (t, call) → t = u)
    (hk : ∀ call point, k = .inCall call point → call ≠ .exit →
      returns call u s.log < entries call u s.log) : Bracketed none (s.setCont u k) := by
  refine ⟨B.le, fun t call point _ hne h => ?_, by simp⟩
  have h : Function.update s.cont u k t = .inCall call point := h
  by_cases e : t = u
  · subst e
    rw [Function.update_self] at h
    exact hk call point h hne
  · rw [Function.update_of_ne e] at h
    exact B.inCall t call point (fun k' hx' => e (hx t k' hx')) hne h

theorem Bracketed.setLock {x : Option (Task × Call)} (B : Bracketed x s) (k : Option ℕ) :
    Bracketed x { s with kernelLock := k } :=
  ⟨B.le, B.inCall, B.step⟩

/-- The process returns from the call that it is in. -/
theorem Bracketed.ret (B : Bracketed (some (s.current c, call)) s) (v : ℤ) :
    Bracketed none (leave c (s.addLog (.ret (s.current c) call v))) := by
  have h1 : ∀ t k, entries k t (s.log ++ [.ret (s.current c) call v]) = entries k t s.log := by
    intro t k
    have hz : entries k t [.ret (s.current c) call v] = 0 := List.count_eq_zero.2 (by simp)
    rw [entries_append, hz, Nat.add_zero]
  have h2 : ∀ t k, (t, k) ≠ (s.current c, call) →
      returns k t (s.log ++ [.ret (s.current c) call v]) = returns k t s.log := by
    intro t k hne
    have hz : Event.returns k t (.ret (s.current c) call v) = false := by
      refine decide_eq_false ?_
      rintro ⟨rfl, rfl⟩
      exact hne rfl
    rw [returns_append, returns, returns, List.countP_singleton, hz]
    rfl
  refine ⟨fun t k hne => ?_, fun t k point _ hne h => ?_, by simp⟩
  · show returns k t (s.log ++ [.ret (s.current c) call v]) ≤
      entries k t (s.log ++ [.ret (s.current c) call v])
    rw [h1]
    by_cases e : (t, k) = (s.current c, call)
    · cases e
      have h3 : returns call (s.current c) [.ret (s.current c) call v] ≤ 1 := List.countP_le_length
      have h4 := B.step _ _ rfl hne
      rw [returns_append]
      omega
    · rw [h2 t k e]
      exact B.le t k hne
  · have h : Function.update s.cont (s.current c) .user t = .inCall k point := h
    by_cases e : t = s.current c
    · subst e
      rw [Function.update_self] at h
      cases h
    · rw [Function.update_of_ne e] at h
      show returns k t (s.log ++ [.ret (s.current c) call v]) <
        entries k t (s.log ++ [.ret (s.current c) call v])
      rw [h1, h2 t k fun e' => e (Prod.mk.inj e').1]
      exact B.inCall t k point (fun k' hx => e (by cases hx; rfl)) hne h

theorem Went.bracketed (hw : Went c call s q r) (B : Bracketed (some (s.current c, call)) s) :
    Bracketed none (r.elim id id) := by
  have hmove : ∀ {P : Obj → Prop} {s1 : Kernel} {q1 : Queues}, Micros c P (s, q) (s1, q1) →
      Bracketed (some (s1.current c, call)) s1 := fun hm => by
    rw [show _ = s.current from hm.current]
    exact hm.bracketed B
  cases hw with
  | ret hm v => exact (hmove hm).ret v
  | sched hm point =>
    refine (hmove hm).move (fun t k h => by cases h; rfl) fun k p hk hne => ?_
    cases hk
    exact (hmove hm).step _ _ rfl hne
  | exit hm =>
    refine (hmove hm).move (fun t k h => by cases h; rfl) fun k p hk hne => ?_
    cases hk
    exact absurd rfl hne

/-- **A step keeps entries and returns in order.** -/
theorem segment_bracketed (H : Good none s q) (A : Alive s) (he : Enabled s a) (hk : ExecOk s a)
    (B : Bracketed none s) (hs : segment s a = some r) : Bracketed none (r.elim id id) := by
  rcases segment_went H A he hk hs with ⟨call, -, -, hw⟩ | ⟨call, point, -, hc, hw⟩ | ⟨-, -, rfl⟩
  · exact hw.bracketed (B.entered a.cpu call)
  · exact hw.bracketed (B.go hc)
  · exact (B.move (k := .user) (by simp) (by simp)).setLock none

theorem Bracketed.switch (B : Bracketed none s) (W : Switched c s s' q q') : Bracketed none s' := by
  obtain ⟨ts, hl, -⟩ := W.log
  refine B.events hl (fun ev hev => ?_) fun t => Or.inl (congrFun W.cont t)
  obtain ⟨t, -, rfl⟩ := List.mem_map.1 hev
  rfl

end RiscvKernel.Sched
