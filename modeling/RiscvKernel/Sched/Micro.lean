import RiscvKernel.Sched.Calls

/-!
# What the calls are made of

A call is a sequence of small steps: memory changes, an object is written, a process blocks, is woken,
is created, is killed or ends. `Micro c o` is one such step of the process on CPU `c`; `o` says which
object it is about. What all calls keep is proved once, for the small steps; that a call consists of them
is proved once for each call. The object tells what a call leaves alone.
-/

namespace RiscvKernel.Sched

open Lib Mm

abbrev Queues := Head → List Task

/-- What a small step is about. -/
inductive Obj
  | proc
  | kill
  | exit
  | keys
  | mutex (i : ℕ)
  | cond (i : ℕ)
  | barrier (i : ℕ)
  | mbox (i : ℕ)
  | pipe (i : ℕ)
deriving DecidableEq

/-- The object that a queue belongs to. -/
def Head.obj : Head → Obj
  | .ready => .proc
  | .sleep => .proc
  | .wait _ => .proc
  | .mutex i => .mutex i
  | .cond i => .cond i
  | .barrier i => .barrier i
  | .send i => .mbox i
  | .recv i => .mbox i
  | .pipe i => .pipe i

/-- The process `t` is blocked in `h`. -/
def blockedIn (t : Task) (h : Head) (l : Links Task Head) (s : Kernel) : Kernel :=
  ((s.setLinks l).setStatus t .blocked).addLog (.block t h)

/-- The process `t` is created with the PCB `p`. -/
def created (t : Task) (p : Pcb) (m : Memory) (l : Links Task Head) (s : Kernel) : Kernel :=
  (((({ s with processId := s.processId + 1 }.setPcb t p).setMemory m).setCont t .fresh).addLog
    (.create t)).setLinks l

/-- The pages of a process that is not a thread have been freed. -/
def freed (t : Task) (m : Memory) (s : Kernel) : Kernel :=
  if (s.pcb t).threadGroupId = 0 then
    (s.setMemory m).addLog (.freeAll t (s.pcb t).pgdirKva)
  else s

/-- One small step of the process on CPU `c`. -/
inductive Micro (c : ℕ) : Obj → Kernel → Queues → Kernel → Queues → Prop
  | memory {s : Kernel} {q : Queues} (m : Memory) : Micro c .proc s q (s.setMemory m) q
  | sleepUntil {s : Kernel} {q : Queues} (n : ℕ) :
    Micro c .proc s q (s.setPcb (s.current c) { s.cur c with wakeupTime := n }) q
  | kill {s : Kernel} {q : Queues} (i : Fin taskMaxnum) (hc : .pcb i ≠ s.current c) :
    Micro c .kill s q (s.setPcb (.pcb i) { s.pcb (.pcb i) with killed := true }) q
  | create {s : Kernel} {q : Queues} (i : Fin taskMaxnum) (p : Pcb) (m : Memory) (l : Links Task Head)
    (he : (s.pcb (.pcb i)).status = .exited) (hs : p.status = .ready) (hp : p.pid = s.processId)
    (hk : p.killed = false) :
    Micro c .proc s q (created (.pcb i) p m l s) (push q .ready (.pcb i))
  | key {s : Kernel} {q : Queues} (i : ℕ) (key : ℤ) :
    Micro c .keys s q (s.setMutex i { s.mlocks i with key := key }) q
  | mutex {s : Kernel} {q : Queues} (i : ℕ) (m : MutexLock)
    (hk : m.key = (s.mlocks i).key ∨ m.key = unused) : Micro c (.mutex i) s q (s.setMutex i m) q
  | cond {s : Kernel} {q : Queues} (i : ℕ) (y : Condition) :
    Micro c (.cond i) s q (s.setCondition i y) q
  | barrier {s : Kernel} {q : Queues} (i : ℕ) (b : Barrier) :
    Micro c (.barrier i) s q (s.setBarrier i b) q
  | mbox {s : Kernel} {q : Queues} (i : ℕ) (m : Mailbox) :
    Micro c (.mbox i) s q (s.setMailbox i m) q
  | put {s : Kernel} {q : Queues} (i : ℕ) (m : Mailbox) (bs : List Byte) :
    Micro c (.mbox i) s q ((s.setMailbox i m).addLog (.put i (s.current c) bs)) q
  | got {s : Kernel} {q : Queues} (i : ℕ) (m : Mailbox) (bs : List Byte) :
    Micro c (.mbox i) s q ((s.setMailbox i m).addLog (.got i (s.current c) bs)) q
  | pipe {s : Kernel} {q : Queues} (i : ℕ) (p : Pipe) (hv : (s.pipes i).valid → p.valid) :
    Micro c (.pipe i) s q (s.setPipe i p) q
  | block {s : Kernel} {q : Queues} (h : Head) (l : Links Task Head)
    (hr : (s.cur c).status = .running) :
    Micro c h.obj s q (blockedIn (s.current c) h l s) (push q h (s.current c))
  | wake {s : Kernel} {q : Queues} (h : Head) (ts rest : List Task) (l : Links Task Head)
    (hh : h ≠ .ready) (hq : q h = ts ++ rest) :
    Micro c h.obj s q (wokenAll ts l s) (movedAll q h rest ts)
  | exit {s : Kernel} {q : Queues} (m : Memory) (hr : (s.cur c).status = .running) :
    Micro c .exit s q (markExited (s.current c) (freed (s.current c) m s)) q

/-- Small steps about objects in `P`, with queues and statuses that agree all along. -/
def Micros (c : ℕ) (P : Obj → Prop) : Kernel × Queues → Kernel × Queues → Prop :=
  Relation.ReflTransGen fun x y =>
    (∃ o, P o ∧ Micro c o x.1 x.2 y.1 y.2) ∧ Mid (some c) y.1 y.2

namespace Micros

variable {c : ℕ} {P Q : Obj → Prop} {x y z : Kernel × Queues}

theorem refl : Micros c P x x := Relation.ReflTransGen.refl

theorem trans (h1 : Micros c P x y) (h2 : Micros c P y z) : Micros c P x z :=
  Relation.ReflTransGen.trans h1 h2

theorem single {s s' : Kernel} {q q' : Queues} {o : Obj} (ho : P o) (h : Micro c o s q s' q')
    (H : Mid (some c) s' q') : Micros c P (s, q) (s', q') :=
  Relation.ReflTransGen.single ⟨⟨o, ho, h⟩, H⟩

theorem mono (hPQ : ∀ o, P o → Q o) (h : Micros c P x y) : Micros c Q x y :=
  Relation.ReflTransGen.mono (fun _ _ ⟨⟨o, ho, hm⟩, H⟩ => ⟨⟨o, hPQ o ho, hm⟩, H⟩) _ _ h

/-- What every small step keeps. -/
theorem inv {I : Kernel → Queues → Prop}
    (hI : ∀ o s q s' q', P o → I s q → Mid (some c) s q → Micro c o s q s' q' →
      Mid (some c) s' q' → I s' q')
    (h : Micros c P x y) (H : Mid (some c) x.1 x.2) (h0 : I x.1 x.2) :
    I y.1 y.2 ∧ Mid (some c) y.1 y.2 := by
  induction h with
  | refl => exact ⟨h0, H⟩
  | tail _ hs ih =>
    obtain ⟨⟨o, ho, hm⟩, H'⟩ := hs
    exact ⟨hI o _ _ _ _ ho ih.1 ih.2 hm H', H'⟩

theorem mid (h : Micros c P x y) (H : Mid (some c) x.1 x.2) : Mid (some c) y.1 y.2 :=
  (h.inv (I := fun _ _ => True) (fun _ _ _ _ _ _ _ _ _ _ => trivial) H trivial).2

end Micros

/-! ## The history of the queues -/

/-- What an event does to the processes that wait in `h`. -/
def waitingStep (h : Head) (w : List Task) : Event → List Task
  | .block t k => if k = h then w ++ [t] else w
  | .wake t => w.erase t
  | _ => w

/-- The processes that have blocked in `h` and have not been woken since, in the order in which they
blocked. -/
def waiting (h : Head) (log : List Event) : List Task := log.foldl (waitingStep h) []

theorem waiting_append (h : Head) (log es : List Event) :
    waiting h (log ++ es) = es.foldl (waitingStep h) (waiting h log) := List.foldl_append ..

theorem waiting_wake (h : Head) (w ts : List Task) (hw : ∀ t ∈ ts, t ∉ w) :
    (ts.map Event.wake).foldl (waitingStep h) w = w := by
  induction ts with
  | nil => rfl
  | cons t ts ih =>
    rw [List.map_cons, List.foldl_cons, waitingStep, List.erase_of_not_mem (hw t (by simp))]
    exact ih fun u hu => hw u (by simp [hu])

theorem waiting_wake_append (h : Head) (ts rest : List Task) :
    (ts.map Event.wake).foldl (waitingStep h) (ts ++ rest) = rest := by
  induction ts with
  | nil => rfl
  | cons t ts ih =>
    rw [List.map_cons, List.foldl_cons, waitingStep, List.cons_append, List.erase_cons_head]
    exact ih

/-- A process that is woken in `h` is the one that has waited longest. -/
def Fifo (h : Head) (log : List Event) : Prop :=
  ∀ l1 t l2, log = l1 ++ .wake t :: l2 → t ∈ waiting h l1 → (waiting h l1).head? = some t

section

variable {h : Head} {log : List Event} {ts : List Task}

theorem Fifo.append (hf : Fifo h log) {ev : Event}
    (hev : ∀ t, ev = .wake t → t ∈ waiting h log → (waiting h log).head? = some t) :
    Fifo h (log ++ [ev]) := by
  intro l1 t l2 he ht
  rcases List.eq_nil_or_concat l2 with rfl | ⟨l3, e, rfl⟩
  · obtain ⟨h1, h2⟩ := List.append_inj' he rfl
    cases h2
    rw [← h1] at ht ⊢
    exact hev t rfl ht
  · have he : log ++ [ev] = (l1 ++ .wake t :: l3) ++ [e] := by simpa using he
    exact hf l1 t l3 (List.append_inj' he rfl).1 ht

/-- Processes are woken from the front of the queue on. -/
theorem Fifo.wake {rest : List Task} (hf : Fifo h log) (hw : waiting h log = ts ++ rest) :
    Fifo h (log ++ ts.map .wake) := by
  induction ts generalizing log with
  | nil => simpa using hf
  | cons t ts ih =>
    have h1 : Fifo h (log ++ [.wake t]) := hf.append fun u hu _ => by
      cases hu
      rw [hw]
      rfl
    have h2 : waiting h (log ++ [.wake t]) = ts ++ rest := by
      rw [waiting_append, hw]
      show (t :: (ts ++ rest)).erase t = ts ++ rest
      rw [List.erase_cons_head]
    simpa using ih h1 h2

/-- Processes that are not in the queue are woken. -/
theorem Fifo.wake_other (hf : Fifo h log) (hw : ∀ t ∈ ts, t ∉ waiting h log) :
    Fifo h (log ++ ts.map .wake) := by
  induction ts generalizing log with
  | nil => simpa using hf
  | cons t ts ih =>
    have h1 : Fifo h (log ++ [.wake t]) := hf.append fun u hu hm => by
      cases hu
      exact absurd hm (hw t (by simp))
    have h2 : waiting h (log ++ [.wake t]) = waiting h log :=
      (waiting_append ..).trans (List.erase_of_not_mem (hw t (by simp)))
    have := ih h1 (by rw [h2]; exact fun u hu => hw u (by simp [hu]))
    simpa using this

end

/-! ## What all calls keep -/

/-- What is left to do after `do_scheduler` fits the call. -/
def Fits (s : Kernel) : Call → Point → Prop
  | .kill _, _ => False
  | .mutexInit _, _ => False
  | .condWait cond m, .relock mutex => mutex = m ∧ 0 ≤ cond ∧ cond < conditionNum
  | .mboxSend idx _ _, .send _ _ => 0 ≤ idx ∧ idx < mboxNum
  | .mboxRecv idx _ _, .recv _ _ => 0 ≤ idx ∧ idx < mboxNum
  | .pipeGive idx _ _, .give _ => 0 ≤ idx ∧ (s.pipes idx.toNat).valid
  | .pipeTake idx _ _, .take _ => 0 ≤ idx ∧ (s.pipes idx.toNat).valid
  | _, .ret _ => True
  | _, _ => False

/-- The invariant of the kernel; as in `Mid`, the current process of CPU `x` may have any status. -/
structure Good (x : Option ℕ) (s : Kernel) (q : Queues) : Prop where
  mid : Mid x s q
  log : ∀ h, h ≠ .ready → h ≠ .sleep → waiting h s.log = q h
  fifo : ∀ h, h ≠ .ready → h ≠ .sleep → Fifo h s.log
  processId : 0 < s.processId
  pid : ∀ i, (s.pcb (.pcb i)).status ≠ .exited →
    0 < (s.pcb (.pcb i)).pid ∧ (s.pcb (.pcb i)).pid < s.processId
  distinct : ∀ i j, (s.pcb (.pcb i)).status ≠ .exited → (s.pcb (.pcb j)).status ≠ .exited →
    (s.pcb (.pcb i)).pid = (s.pcb (.pcb j)).pid → i = j
  idle : ∀ a, (s.pcb (.idle a)).killed = false
  cont : ∀ t call point, s.cont t = .inCall call point → call.madeBy t ∧ Fits s call point

section

variable {c : ℕ} {o : Obj} {s s' : Kernel} {q q' : Queues} {t : Task} {h : Head}

theorem setPcb_apply (u : Task) (p : Pcb) : (s.setPcb t p).pcb u = if u = t then p else s.pcb u :=
  Function.update_apply ..

theorem blockedIn_pcb (u : Task) (l : Links Task Head) :
    (blockedIn t h l s).pcb u = if u = t then { s.pcb t with status := .blocked } else s.pcb u :=
  setPcb_apply (s := s) u _

theorem created_pcb {p : Pcb} {m : Memory} {l : Links Task Head} (u : Task) :
    (created t p m l s).pcb u = if u = t then p else s.pcb u := setPcb_apply (s := s) u _

theorem freed_pcb (m : Memory) : (freed t m s).pcb = s.pcb := by
  unfold freed
  split_ifs <;> rfl

theorem markExited_pcb (u : Task) : (markExited t s).pcb u = if u = t then
    { s.pcb t with status := .exited, killed := true, threadGroupId := 0, mask := maskAll }
    else s.pcb u := setPcb_apply (s := s) u _

/-- A small step does not change which process runs on a CPU. -/
theorem Micro.current (hm : Micro c o s q s' q') : s'.current = s.current := by
  cases hm <;> try rfl
  unfold freed
  split_ifs <;> rfl

theorem Micro.kernelLock (hm : Micro c o s q s' q') : s'.kernelLock = s.kernelLock := by
  cases hm <;> try rfl
  unfold freed
  split_ifs <;> rfl

theorem Micro.pipe_valid (hm : Micro c o s q s' q') (i : ℕ) (hv : (s.pipes i).valid) :
    (s'.pipes i).valid := by
  cases hm <;> try exact hv
  · rename_i k p hp
    by_cases e : i = k
    · subst e
      simpa [Kernel.setPipe] using hp hv
    · simpa [Kernel.setPipe, e] using hv
  · unfold freed
    split_ifs <;> exact hv

/-- What a small step other than the creation of a process keeps. -/
structure Lives (s s' : Kernel) : Prop where
  processId : s'.processId = s.processId
  cont : s'.cont = s.cont
  pid : ∀ t, (s'.pcb t).pid = (s.pcb t).pid
  exited : ∀ t, (s.pcb t).status = .exited → (s'.pcb t).status = .exited
  idle : ∀ a, (s'.pcb (.idle a)).killed = (s.pcb (.idle a)).killed

theorem Lives.of_pcb (h1 : s'.processId = s.processId) (h2 : s'.cont = s.cont) (h3 : s'.pcb = s.pcb) :
    Lives s s' :=
  ⟨h1, h2, fun _ => by rw [h3], fun _ h => by rwa [h3], fun _ => by rw [h3]⟩

/-- One PCB has been written. -/
theorem Lives.of_update {p : Pcb} (h1 : s'.processId = s.processId) (h2 : s'.cont = s.cont)
    (h3 : ∀ u, s'.pcb u = if u = t then p else s.pcb u) (h4 : p.pid = (s.pcb t).pid)
    (h5 : (s.pcb t).status = .exited → p.status = .exited)
    (h6 : ∀ a, t = .idle a → p.killed = (s.pcb t).killed) : Lives s s' := by
  refine ⟨h1, h2, fun u => ?_, fun u hu => ?_, fun a => ?_⟩
  · rw [h3]
    split_ifs with e
    · rw [e, h4]
    · rfl
  · rw [h3]
    split_ifs with e
    · exact h5 (e ▸ hu)
    · exact hu
  · rw [h3]
    split_ifs with e
    · rw [h6 a e.symm, e]
    · rfl

/-- A small step creates a process or keeps what `Lives` says. -/
theorem Micro.lives (hm : Micro c o s q s' q') (H : Mid (some c) s q) (H' : Mid (some c) s' q') :
    (∃ i p m l, (s.pcb (.pcb i)).status = .exited ∧ p.status = .ready ∧ p.pid = s.processId ∧
      p.killed = false ∧ s' = created (.pcb i) p m l s) ∨ Lives s s' := by
  cases hm with
  | create i p m l he hs hp hk => exact Or.inl ⟨i, p, m, l, he, hs, hp, hk, rfl⟩
  | memory | key | mutex | cond | barrier | mbox | put | got | pipe => exact Or.inr (.of_pcb rfl rfl rfl)
  | sleepUntil n =>
    exact Or.inr (.of_update rfl rfl (fun u => setPcb_apply u _) rfl (fun h => h) fun _ _ => rfl)
  | kill i hc =>
    exact Or.inr (.of_update rfl rfl (fun u => setPcb_apply u _) rfl (fun h => h) (by simp))
  | block h l hr =>
    refine Or.inr (.of_update rfl rfl (fun u => blockedIn_pcb u l) rfl (fun he => ?_) fun _ _ => rfl)
    exact absurd (he.symm.trans hr) (by simp)
  | wake h ts rest l hh hq =>
    have hpcb : ∀ u, (wokenAll ts l s).pcb u =
        if u ∈ ts then { s.pcb u with status := .ready } else s.pcb u := fun _ => rfl
    refine Or.inr ⟨rfl, rfl, fun u => ?_, fun u hu => ?_, fun a => ?_⟩
    · rw [hpcb]; split_ifs <;> rfl
    · rw [hpcb, if_neg]
      · exact hu
      · intro e
        rw [H.blocked.1 ⟨h, hh, by rw [hq]; simp [e]⟩] at hu
        cases hu
    · rw [hpcb]; split_ifs <;> rfl
  | exit m hr =>
    have hpcb : ∀ u, (markExited (s.current c) (freed (s.current c) m s)).pcb u =
        if u = s.current c then { s.pcb (s.current c) with
          status := .exited, killed := true, threadGroupId := 0, mask := maskAll } else s.pcb u := by
      intro u
      rw [markExited_pcb, freed_pcb]
    refine Or.inr (.of_update ?_ ?_ hpcb rfl (fun _ => rfl) fun a e => ?_)
    · unfold freed; split_ifs <;> rfl
    · unfold freed; split_ifs <;> rfl
    · -- the idle process does not end
      have h1 := (H'.idle a).1
      rw [hpcb, if_pos e.symm] at h1
      cases h1

/-- The log tells what is in the queues. -/
theorem Micro.log (hm : Micro c o s q s' q') (H : Mid (some c) s q)
    (hl : ∀ h, h ≠ .ready → h ≠ .sleep → waiting h s.log = q h) (k : Head) (hk : k ≠ .ready)
    (hk' : k ≠ .sleep) : waiting k s'.log = q' k := by
  have hl := hl k hk hk'
  cases hm with
  | memory | sleepUntil | kill | key | mutex | cond | barrier | mbox | pipe => exact hl
  | put i m bs => exact (waiting_append k s.log _).trans hl
  | got i m bs => exact (waiting_append k s.log _).trans hl
  | create i p m l =>
    rw [push_of_ne hk, ← hl]
    exact waiting_append k s.log _
  | block h l hr =>
    refine (waiting_append k s.log _).trans ?_
    rw [hl, List.foldl_cons, List.foldl_nil, waitingStep]
    split_ifs with e
    · rw [← e, push_self]
    · rw [push_of_ne (Ne.symm e)]
  | wake h ts rest l hh hq =>
    refine (waiting_append k s.log _).trans ?_
    rw [hl, movedAll, Function.update_of_ne hk]
    by_cases e : k = h
    · rw [e, Function.update_self, hq, waiting_wake_append]
    · rw [Function.update_of_ne e, waiting_wake]
      intro t ht ht'
      exact e (H.rings.disj ht' (by rw [hq]; simp [ht]))
  | exit m hr =>
    have hf : waiting k (freed (s.current c) m s).log = waiting k s.log := by
      unfold freed
      split_ifs
      · exact waiting_append k s.log _
      · rfl
    exact (waiting_append k _ _).trans (hf.trans hl)

/-- Queues are served in order. -/
theorem Micro.fifo (hm : Micro c o s q s' q') (H : Mid (some c) s q) {k : Head}
    (hl : waiting k s.log = q k) (hf : Fifo k s.log) : Fifo k s'.log := by
  cases hm with
  | memory | sleepUntil | kill | key | mutex | cond | barrier | mbox | pipe => exact hf
  | put | got | create | block => exact hf.append (by simp)
  | wake h ts rest l hh hq =>
    by_cases e : k = h
    · rw [← e] at hq
      exact hf.wake (hl.trans hq)
    · refine hf.wake_other fun t ht hm => ?_
      rw [hl] at hm
      exact e (H.rings.disj hm (by rw [hq]; simp [ht]))
  | exit m hr =>
    refine Fifo.append ?_ (by simp)
    unfold freed
    split_ifs
    · exact hf.append (by simp)
    · exact hf

theorem Fits.mono {call : Call} {point : Point} (hv : ∀ i, (s.pipes i).valid → (s'.pipes i).valid)
    (hf : Fits s call point) : Fits s' call point := by
  cases call <;> cases point <;> first | exact hf | exact ⟨hf.1, hv _ hf.2⟩

/-- **Every small step keeps the invariant.** -/
theorem Micro.good (hm : Micro c o s q s' q') (H : Good (some c) s q) (H' : Mid (some c) s' q') :
    Good (some c) s' q' := by
  have hlog := hm.log H.mid H.log
  have hfifo : ∀ h, h ≠ .ready → h ≠ .sleep → Fifo h s'.log :=
    fun h h1 h2 => hm.fifo H.mid (H.log h h1 h2) (H.fifo h h1 h2)
  rcases hm.lives H.mid H' with ⟨i, p, m, l, he, hs, hp, hk, rfl⟩ | L
  · have hpcb : ∀ j, (created (.pcb i) p m l s).pcb (.pcb j) = if j = i then p else s.pcb (.pcb j) := by
      intro j
      rw [created_pcb]
      simp
    have h0 := H.processId
    refine ⟨H', hlog, hfifo, ?_, fun j => ?_, fun j k => ?_, fun a => ?_, fun u call point hu => ?_⟩
    · show 0 < s.processId + 1
      omega
    · show _ → _ ∧ _ < s.processId + 1
      rw [hpcb]
      split_ifs with e
      · intro _
        rw [hp]
        omega
      · intro hj
        have := H.pid j hj
        omega
    · rw [hpcb, hpcb]
      split_ifs with e1 e2 e2
      · intro _ _ _
        rw [e1, e2]
      · intro _ h2 h3
        have := H.pid k h2
        omega
      · intro h1 _ h3
        have := H.pid j h1
        omega
      · exact H.distinct j k
    · rw [created_pcb, if_neg (by simp)]
      exact H.idle a
    · have hu : Function.update s.cont (.pcb i) .fresh u = .inCall call point := hu
      rw [Function.update_apply] at hu
      split_ifs at hu
      exact H.cont u call point hu
  · refine ⟨H', hlog, hfifo, ?_, fun j hj => ?_, fun j k hj hk he => ?_, fun a => ?_, fun u call point hu => ?_⟩
    · rw [L.processId]
      exact H.processId
    · rw [L.pid, L.processId]
      exact H.pid j fun e => hj (L.exited _ e)
    · rw [L.pid, L.pid] at he
      exact H.distinct j k (fun e => hj (L.exited _ e)) (fun e => hk (L.exited _ e)) he
    · rw [L.idle]
      exact H.idle a
    · rw [L.cont] at hu
      obtain ⟨h1, h2⟩ := H.cont u call point hu
      exact ⟨h1, h2.mono hm.pipe_valid⟩

theorem Micros.good {P : Obj → Prop} (h : Micros c P (s, q) (s', q')) (H : Good (some c) s q) :
    Good (some c) s' q' :=
  (h.inv (I := Good (some c)) (fun _ _ _ _ _ _ H _ hm H' => hm.good H H') H.mid H).1

/-! ## What small steps about other things leave alone -/

theorem freed_keeps {α : Type} (f : Kernel → α) (h1 : ∀ s m, f (s.setMemory m) = f s)
    (h2 : ∀ s ev, f (s.addLog ev) = f s) (m : Memory) : f (freed t m s) = f s := by
  unfold freed
  split_ifs
  · rw [h2, h1]
  · rfl

/-- Other calls leave a mutex alone, but for its key. -/
theorem Micro.mlocks (hm : Micro c o s q s' q') {i : ℕ} (ho : o ≠ .mutex i) :
    (s'.mlocks i).lock = (s.mlocks i).lock ∧ (s'.mlocks i).status = (s.mlocks i).status ∧
      (s'.mlocks i).pid = (s.mlocks i).pid := by
  cases hm <;> try exact ⟨rfl, rfl, rfl⟩
  · rename_i j key
    have h : ∀ m, (s.setMutex j m).mlocks i = if i = j then m else s.mlocks i := fun m =>
      Function.update_apply ..
    rw [h]
    split_ifs with e
    · rw [e]
      exact ⟨rfl, rfl, rfl⟩
    · exact ⟨rfl, rfl, rfl⟩
  · rename_i j m _
    have h : (s.setMutex j m).mlocks i = s.mlocks i :=
      Function.update_of_ne (fun e => ho (by rw [e])) ..
    rw [h]
    exact ⟨rfl, rfl, rfl⟩
  · rename_i m _
    have h : (freed (s.current c) m s).mlocks = s.mlocks :=
      freed_keeps (·.mlocks) (fun _ _ => rfl) (fun _ _ => rfl) _
    show ((freed (s.current c) m s).mlocks i).lock = _ ∧ ((freed (s.current c) m s).mlocks i).status = _ ∧
      ((freed (s.current c) m s).mlocks i).pid = _
    rw [h]
    exact ⟨rfl, rfl, rfl⟩

/-- Other calls than do_mutex_lock_init only take keys away. -/
theorem Micro.key_eq (hm : Micro c o s q s' q') (ho : o ≠ .keys) (i : ℕ) :
    (s'.mlocks i).key = (s.mlocks i).key ∨ (s'.mlocks i).key = unused := by
  cases hm <;> try exact Or.inl rfl
  · exact absurd rfl ho
  · rename_i j m hk
    have h : (s.setMutex j m).mlocks i = if i = j then m else s.mlocks i := Function.update_apply ..
    rw [h]
    split_ifs with e
    · rw [e]
      exact hk
    · exact Or.inl rfl
  · rename_i m _
    have h : (freed (s.current c) m s).mlocks = s.mlocks :=
      freed_keeps (·.mlocks) (fun _ _ => rfl) (fun _ _ => rfl) _
    exact Or.inl (congrArg MutexLock.key (congrFun h i))

theorem Micro.conditions (hm : Micro c o s q s' q') {i : ℕ} (ho : o ≠ .cond i) :
    s'.conditions i = s.conditions i := by
  cases hm <;> try rfl
  · rename_i j m
    exact Function.update_of_ne (fun e => ho (by rw [e])) ..
  · exact congrFun (freed_keeps (·.conditions) (fun _ _ => rfl) (fun _ _ => rfl) _) i

theorem Micro.barriers (hm : Micro c o s q s' q') {i : ℕ} (ho : o ≠ .barrier i) :
    s'.barriers i = s.barriers i := by
  cases hm <;> try rfl
  · rename_i j m
    exact Function.update_of_ne (fun e => ho (by rw [e])) ..
  · exact congrFun (freed_keeps (·.barriers) (fun _ _ => rfl) (fun _ _ => rfl) _) i

theorem Micro.mailboxes (hm : Micro c o s q s' q') {i : ℕ} (ho : o ≠ .mbox i) :
    s'.mailboxes i = s.mailboxes i := by
  have hne : ∀ (j : ℕ) (m : Mailbox), (.mbox j : Obj) ≠ .mbox i →
      Function.update s.mailboxes j m i = s.mailboxes i :=
    fun j m h => Function.update_of_ne (fun e => h (by rw [e])) ..
  cases hm <;> try rfl
  · exact hne _ _ ho
  · exact hne _ _ ho
  · exact hne _ _ ho
  · exact congrFun (freed_keeps (·.mailboxes) (fun _ _ => rfl) (fun _ _ => rfl) _) i

theorem Micro.pipes (hm : Micro c o s q s' q') {i : ℕ} (ho : o ≠ .pipe i) :
    s'.pipes i = s.pipes i := by
  cases hm <;> try rfl
  · rename_i j m _
    exact Function.update_of_ne (fun e => ho (by rw [e])) ..
  · exact congrFun (freed_keeps (·.pipes) (fun _ _ => rfl) (fun _ _ => rfl) _) i

/-- The queues of other objects stay as they are. -/
theorem Micro.queue (hm : Micro c o s q s' q') (ho : o ≠ h.obj) (hr : h ≠ .ready) : q' h = q h := by
  cases hm <;> try rfl
  · exact push_of_ne hr
  · exact push_of_ne fun e => ho (by rw [e])
  · rw [movedAll, Function.update_of_ne hr, Function.update_of_ne fun e => ho (by rw [e])]

/-- Only the process itself ends. -/
theorem Micro.exits (hm : Micro c o s q s' q') (hx : o ≠ .exit)
    (ht : (s.pcb t).status ≠ .exited) : (s'.pcb t).status ≠ .exited := by
  cases hm with
  | memory | key | mutex | cond | barrier | mbox | put | got | pipe => exact ht
  | exit => exact absurd rfl hx
  | sleepUntil n =>
    rw [setPcb_apply]
    split_ifs with e
    · rw [e] at ht; exact ht
    · exact ht
  | kill i =>
    rw [setPcb_apply]
    split_ifs with e
    · rw [e] at ht; exact ht
    · exact ht
  | create i p m l he hs =>
    rw [created_pcb]
    split_ifs
    · rw [hs]; simp
    · exact ht
  | block h l hr =>
    rw [blockedIn_pcb]
    split_ifs
    · simp
    · exact ht
  | wake h ts rest l =>
    rw [wokenAll_status]
    split_ifs
    · simp
    · exact ht

theorem Micros.queue {P : Obj → Prop} {y z : Kernel × Queues} (hm : Micros c P y z) (hP : ¬ P h.obj)
    (hr : h ≠ .ready) : z.2 h = y.2 h := by
  induction hm with
  | refl => rfl
  | tail _ hs ih =>
    obtain ⟨⟨o, ho, hm⟩, -⟩ := hs
    exact (hm.queue (fun e => hP (e ▸ ho)) hr).trans ih

end

end RiscvKernel.Sched
