import RiscvKernel.Sched.Mutex

/-!
# The handles of mutexes

`do_mutex_lock_init` finds the slot of a key or binds the first slot without a key to it.
`do_mutex_lock_release` takes the key away when nobody waits, though the processes keep their handles. A key
is therefore protected by one slot, and a slot protects one key, as long as a slot that has lost its key
gets it back before another key needs a slot.
-/

namespace RiscvKernel.Sched

open Lib Mm

variable {c i : ℕ} {P : Obj → Prop} {o : Obj} {s s' s1 s2 : Kernel} {q q' q1 : Queues} {t u : Task}
  {call : Call} {a : Act} {as : List Act}

/-- The key and the handle of a successful do_mutex_lock_init. -/
def Event.handle : Event → Option (ℤ × ℤ)
  | .ret _ (.mutexInit key) idx => if 0 ≤ idx then some (key, idx) else none
  | _ => none

/-- All handles that have been returned, with their keys. -/
def handles (log : List Event) : List (ℤ × ℤ) := log.filterMap Event.handle

theorem handles_append (log es : List Event) : handles (log ++ es) = handles log ++ handles es :=
  List.filterMap_append

theorem handles_quiet (ev : Event) (h : ev.handle = none) (log : List Event) :
    handles (log ++ [ev]) = handles log := by
  rw [handles_append, handles, handles, List.filterMap_cons_none h, List.filterMap_nil, List.append_nil]

theorem handles_wake (log : List Event) (ts : List Task) :
    handles (log ++ ts.map .wake) = handles log := by
  rw [handles_append]
  have h : handles (ts.map .wake) = [] := by
    simp [handles, Event.handle]
  rw [h, List.append_nil]

/-- Mutual exclusion for keys instead of slots. -/
structure PerKey (s : Kernel) : Prop where
  exclusion : ∀ (k : ℤ) (i j : ℕ) (t u : Task), (k, (i : ℤ)) ∈ handles s.log → (k, (j : ℤ)) ∈ handles s.log →
    inside i t s.log → inside j u s.log → t = u
  blocking : ∀ (k l : ℤ) (i : ℕ) (t u : Task), (k, (i : ℤ)) ∈ handles s.log →
    (l, (i : ℤ)) ∈ handles s.log → t ∈ waiting (.mutex i) s.log → inside i u s.log ∨ Handed i u s → k = l

/-! ## The binding of keys -/

/-- The first slot without a key. -/
def freeMutex (s : Kernel) : Option ℕ :=
  scan (fun i => if (s.mlocks i).key = unused then some i else none) 0 lockNum

def Move.initKey : Move → Option ℤ
  | .enter (.mutexInit key) => some key
  | _ => none

/-- A do_mutex_lock_init that has to bind a slot finds the one that its key had before, and if the key had
none, one that no key had before. -/
def Rebinds (s : Kernel) (a : Act) : Prop :=
  ∀ key ∈ a.move.initKey, 0 ≤ key → (∀ i < lockNum, key ≠ (s.mlocks i).key) →
    ∀ i ∈ freeMutex s, ∀ p ∈ handles s.log, p.1 = key ↔ p.2 = i

instance (s : Kernel) (a : Act) : Decidable (Rebinds s a) :=
  inferInstanceAs (Decidable (∀ key ∈ a.move.initKey, 0 ≤ key → (∀ i < lockNum, key ≠ (s.mlocks i).key) →
    ∀ i ∈ freeMutex s, _))

/-- A step of a run without kills in which keys and slots belong together. -/
def KeepsHandles (s : Kernel) (a : Act) : Prop := NoKill s a ∧ Rebinds s a

instance (s : Kernel) (a : Act) : Decidable (KeepsHandles s a) := inferInstanceAs (Decidable (_ ∧ _))

/-- Each key has had one slot, and each slot one key. -/
structure Bound (s : Kernel) : Prop where
  range : ∀ p ∈ handles s.log, 0 ≤ p.2 ∧ p.2 < lockNum
  pairs : ∀ p ∈ handles s.log, ∀ p' ∈ handles s.log, p.1 = p'.1 ↔ p.2 = p'.2
  slots : ∀ i < lockNum, (s.mlocks i).key ≠ unused → ∀ p ∈ handles s.log, p.1 = (s.mlocks i).key ↔ p.2 = i
  distinct : ∀ i < lockNum, ∀ j < lockNum, (s.mlocks i).key ≠ unused →
    (s.mlocks i).key = (s.mlocks j).key → i = j

/-- Keys may be lost. -/
theorem Bound.of_keys (B : Bound s) (hl : handles s'.log = handles s.log)
    (hk : ∀ i, (s'.mlocks i).key = (s.mlocks i).key ∨ (s'.mlocks i).key = unused) : Bound s' := by
  have hk1 : ∀ i, (s'.mlocks i).key ≠ unused → (s'.mlocks i).key = (s.mlocks i).key :=
    fun i h => (hk i).resolve_right h
  refine ⟨by rw [hl]; exact B.range, by rw [hl]; exact B.pairs, fun i hi h => ?_, fun i hi j hj h h1 => ?_⟩
  · rw [hl, hk1 i h]
    exact B.slots i hi (hk1 i h ▸ h)
  · have h2 := h
    rw [h1] at h2
    rw [hk1 i h, hk1 j h2] at h1
    exact B.distinct i hi j hj (hk1 i h ▸ h) h1

theorem Micro.handles (hm : Micro c o s q s' q') : handles s'.log = Sched.handles s.log := by
  cases hm with
  | memory | sleepUntil | kill | key | mutex | cond | barrier | mbox | pipe => rfl
  | create | put | got | block => exact handles_quiet _ rfl s.log
  | wake k ts rest l => exact handles_wake s.log ts
  | exit m hr =>
    refine (handles_quiet (.exit (s.current c)) rfl _).trans ?_
    unfold freed
    split_ifs
    · exact handles_quiet (.freeAll _ _) rfl s.log
    · rfl

theorem Micros.bound (hm : Micros c P (s, q) (s', q')) (M : Mid (some c) s q) (hP : ¬ P .keys)
    (B : Bound s) : Bound s' :=
  (hm.inv (I := fun s' _ => Bound s') (fun _ _ _ _ _ ho B _ hm _ =>
    B.of_keys hm.handles (hm.key_eq fun e => hP (e ▸ ho))) M B).1

/-- What do_mutex_lock_init returns. -/
theorem doMutexLockInit_cases (key : ℤ) (s : Kernel) :
    ((doMutexLockInit key s).1 = -1 ∧ (doMutexLockInit key s).2 = s) ∨
    (0 ≤ key ∧ ∃ i < lockNum, (s.mlocks i).key = key ∧ doMutexLockInit key s = ((i : ℤ), s)) ∨
    (0 ≤ key ∧ (∀ i < lockNum, key ≠ (s.mlocks i).key) ∧ ∃ i < lockNum, freeMutex s = some i ∧
      doMutexLockInit key s = ((i : ℤ), s.setMutex i { s.mlocks i with key := key })) := by
  unfold doMutexLockInit
  by_cases hkey : key < 0
  · rw [if_pos hkey]
    exact Or.inl ⟨rfl, rfl⟩
  rw [if_neg hkey]
  cases h1 : scan (fun i => if key = (s.mlocks i).key then some i else none) 0 lockNum with
  | some i =>
    obtain ⟨j, -, hj, hi, -⟩ := scan_eq_some.1 h1
    split_ifs at hi with he
    cases hi
    exact Or.inr (Or.inl ⟨by omega, i, by omega, he.symm, rfl⟩)
  | none =>
    have hne : ∀ i < lockNum, key ≠ (s.mlocks i).key := by
      intro i hi
      have := scan_eq_none.1 h1 i (by omega) (by omega)
      simpa using this
    cases h2 : scan (fun i => if (s.mlocks i).key = unused then some i else none) 0 lockNum with
    | none => exact Or.inl ⟨rfl, rfl⟩
    | some i =>
      obtain ⟨j, -, hj, hi, -⟩ := scan_eq_some.1 h2
      split_ifs at hi with he
      cases hi
      exact Or.inr (Or.inr ⟨by omega, hne, i, by omega, h2, rfl⟩)

/-- Another handle for a slot that the key belongs to. -/
theorem Bound.add {key : ℤ} (B : Bound s) (hi : i < lockNum)
    (hl : handles s'.log = handles s.log ++ [(key, (i : ℤ))]) (hkey : (s'.mlocks i).key = key)
    (hne : ∀ j, j ≠ i → s'.mlocks j = s.mlocks j) (hother : ∀ j < lockNum, j ≠ i → (s.mlocks j).key ≠ key)
    (hp : ∀ p ∈ handles s.log, p.1 = key ↔ p.2 = i) : Bound s' := by
  have hmem : ∀ p, p ∈ handles s'.log ↔ p ∈ handles s.log ∨ p = (key, (i : ℤ)) := by
    intro p
    rw [hl, List.mem_append, List.mem_singleton]
  refine ⟨fun p h => ?_, fun p h p' h' => ?_, fun j hj h p h1 => ?_, fun j hj l hl' h h1 => ?_⟩
  · rcases (hmem p).1 h with h | rfl
    · exact B.range p h
    · exact ⟨by simp, by simpa using hi⟩
  · rcases (hmem p).1 h with h | rfl <;> rcases (hmem p').1 h' with h' | rfl
    · exact B.pairs p h p' h'
    · exact hp p h
    · exact ⟨fun e => ((hp p' h').1 e.symm).symm, fun e => ((hp p' h').2 e.symm).symm⟩
    · simp
  · by_cases e : j = i
    · subst e
      rw [hkey]
      rcases (hmem p).1 h1 with h1 | rfl
      · exact hp p h1
      · simp
    · rw [hne j e] at h ⊢
      rcases (hmem p).1 h1 with h1 | rfl
      · exact B.slots j hj h p h1
      · exact ⟨fun h2 => absurd h2.symm (hother j hj e), fun h2 => absurd (by simpa using h2.symm) e⟩
  · by_cases e : j = i <;> by_cases e' : l = i
    · rw [e, e']
    · subst e
      rw [hkey, hne l e'] at h1
      exact absurd h1.symm (hother l hl' e')
    · subst e'
      rw [hkey, hne j e] at h1
      exact absurd h1 (hother j hj e)
    · rw [hne j e] at h
      rw [hne j e, hne l e'] at h1
      exact B.distinct j hj l hl' h h1

/-- **do_mutex_lock_init** that meets the condition. -/
theorem init_bound {key : ℤ} {env : Env} (B : Bound s) (hr : Rebinds s ⟨c, env, .enter (.mutexInit key)⟩)
    {s1 : Kernel} (h1 : s1 = (doMutexLockInit key (entered c (.mutexInit key) s)).2) (t : Task) :
    Bound (s1.addLog (.ret t (.mutexInit key) (doMutexLockInit key (entered c (.mutexInit key) s)).1)) := by
  have hl : handles (entered c (.mutexInit key) s).log = handles s.log :=
    handles_quiet (.enter _ _) rfl s.log
  have hret : ∀ j : ℕ, handles (s.log ++ [.enter (s.current c) (.mutexInit key)] ++
      [.ret t (.mutexInit key) (j : ℤ)]) = handles s.log ++ [(key, (j : ℤ))] := by
    intro j
    rw [handles_append]
    exact congrArg (· ++ _) hl
  rcases doMutexLockInit_cases key (entered c (.mutexInit key) s) with
    ⟨h2, h3⟩ | ⟨h0, i, hi, h2, h3⟩ | ⟨h0, hne, i, hi, hf, h3⟩
  · rw [h1, h2, h3]
    exact B.of_keys ((handles_quiet (.ret _ _ _) rfl _).trans hl) fun i => Or.inl rfl
  · rw [h1, h3]
    have h2 : (s.mlocks i).key = key := h2
    have hu : (s.mlocks i).key ≠ unused := by
      rw [h2, unused]
      omega
    refine B.add hi (hret i) h2 (fun _ _ => rfl) (fun j hj hji hk => ?_) fun p hp => ?_
    · exact hji (B.distinct i hi j hj hu (h2.trans hk.symm)).symm
    · rw [← h2]
      exact B.slots i hi hu p hp
  · rw [h1, h3]
    have hkey : (((entered c (.mutexInit key) s).setMutex i
        { (entered c (.mutexInit key) s).mlocks i with key := key }).mlocks i).key = key := by
      simp [Kernel.setMutex]
    refine B.add hi (hret i) hkey
      (fun j hj => Function.update_of_ne hj ..) (fun j hj _ hk => hne j hj hk.symm) ?_
    exact hr key rfl h0 hne i hf

/-- **A step that meets the condition** keeps keys and slots together. -/
theorem segment_bound (G : Good none s q) (A : Alive s) (B : Bound s) (he : Enabled s a)
    (hP : KeepsHandles s a) {r : Kernel ⊕ Kernel} (hs : segment s a = some r) : Bound (r.elim id id) := by
  by_cases hinit : ∃ key, a.move = .enter (.mutexInit key)
  · obtain ⟨c, env, move⟩ := a
    obtain ⟨key, rfl⟩ := hinit
    simp only [segment] at hs
    rw [if_neg (by rw [show ((entered c _ s).cur c).killed = false from A.cur G c]; simp)] at hs
    cases hs
    exact (init_bound B hP.2 rfl _).of_keys rfl fun i => Or.inl rfl
  obtain ⟨s0, k, hb, ho⟩ := segment_outcome G he hP.1.2 hs
  have hk : ∀ key, k ≠ some (.mutexInit key) := by
    rintro key rfl
    cases hb with
    | enter c e call => exact hinit ⟨key, rfl⟩
    | go c e call point hc => exact (G.cont _ _ point hc).2
  have hkeys : ¬ reach k .keys := by
    rintro ⟨call, rfl, h | h⟩
    · cases call <;> simp [Call.about, At] at h
      exact hk _ rfl
    · simp [Call.about] at h
  have G0 := hb.good G
  have B0 : Bound s0 := by
    cases hb with
    | enter c e call => exact B.of_keys (handles_quiet (.enter _ _) rfl s.log) fun i => Or.inl rfl
    | go => exact B
    | fresh => exact B
  clear hs
  cases ho with
  | leave hm hr hs =>
    have B1 := hm.bound G0.mid.weaken hkeys B0
    rcases hs with rfl | ⟨call, r, rfl, rfl⟩
    · exact B1.of_keys rfl fun i => Or.inl rfl
    · refine B1.of_keys (handles_quiet _ ?_ _) fun i => Or.inl rfl
      cases call <;> first | rfl | exact absurd rfl (hk _)
  | switch hm => exact (hm.bound G0.mid.weaken hkeys B0).of_keys rfl fun i => Or.inl rfl

theorem Bound.switch (B : Bound s) (W : Switched c s s' q q') : Bound s' := by
  obtain ⟨ts, hl, -⟩ := W.log
  refine B.of_keys ?_ fun i => Or.inl (by rw [W.mlocks])
  rw [hl]
  exact handles_wake s.log ts

/-! ## Runs -/

/-- **Mutual exclusion per key** in every run in which each do_mutex_lock_init that binds a slot keeps keys
and slots together. -/
theorem run_perKey (h0 : Start s) (hv : Run.Valid next (Steps KeepsHandles) s as) :
    PerKey (Run.run next s as) := by
  have hstart : Bound s := by
    have hl : handles s.log = [] := by rw [h0.log]; rfl
    have hk : ∀ i, (s.mlocks i).key = unused := fun i => by rw [h0.mlocks]
    refine ⟨by simp [hl], by simp [hl], by simp [hl], fun i _ j _ h => absurd (hk i) h⟩
  have hseg : ∀ s q a r, Good none s q → Alive s → Bound s → Enabled s a → KeepsHandles s a →
      segment s a = some r → ∃ q1, Rings (r.elim id id).links q1 ∧ Bound (r.elim id id) := by
    intro s q a r G A B he hP hs
    obtain ⟨s0, k, hb, ho⟩ := segment_outcome G he hP.1.2 hs
    obtain ⟨q1, hr⟩ := ho.rings (hb.good G)
    exact ⟨q1, hr, segment_bound G A B he hP hs⟩
  obtain ⟨-, -, -, B⟩ := run_inv (J := fun s _ => Bound s) (fun _ _ h => h.1) hseg
    (fun _ _ _ _ _ _ W B => B.switch W) h0 hstart hv
  refine ⟨fun k i j t u hi hj ht hu => ?_, fun k l i t u hk hl _ _ => ?_⟩
  · obtain rfl : i = j := by simpa using (B.pairs _ hi _ hj).1 rfl
    have hr : (i : ℤ) < lockNum := (B.range _ hi).2
    obtain ⟨w, q, G, S⟩ := run_slot (i := i) (fun _ _ h => h.1) h0 (by omega) hv
    exact (S.ok G).one t u ht hu
  · exact (B.pairs _ hk _ hl).2 rfl

/-- Two processes take turns with two mutexes; the keys go back to their slots. -/
theorem perKey_turns : PerKey (Run.run next boot (twoProcesses ++
    [calls 0 (.mutexInit 5), calls 0 (.mutexAcquire 0), calls 0 (.mutexRelease 0), calls 1 (.mutexInit 5),
      calls 1 (.mutexInit 6), calls 1 (.mutexAcquire 0), calls 0 (.mutexAcquire 0)])) :=
  run_perKey start_boot (by decide +kernel)

def Move.mutex : Move → Option ℤ
  | .enter (.mutexAcquire idx) => some idx
  | .enter (.mutexRelease idx) => some idx
  | _ => none

/-- A step of a run without kills in which mutexes are used through handles. -/
def UsesHandles (s : Kernel) (a : Act) : Prop :=
  NoKill s a ∧ ∀ idx ∈ a.move.mutex, idx ∈ (handles s.log).map Prod.snd

instance (s : Kernel) (a : Act) : Decidable (UsesHandles s a) :=
  inferInstanceAs (Decidable (_ ∧ ∀ idx ∈ a.move.mutex, _))

/-- The first process makes a handle for key 5 and uses it; slot 0 loses its key. The second one makes
handles for key 6 and key 5 and gets slots 0 and 1. In the end both are in critical sections for key 5. -/
theorem otherKey_collides :
    ¬ ∀ as, Run.Valid next (Steps UsesHandles) boot as → PerKey (Run.run next boot as) := by
  intro h
  have h1 := (h (twoProcesses ++
    [calls 0 (.mutexInit 5), calls 0 (.mutexAcquire 0), calls 0 (.mutexRelease 0), calls 1 (.mutexInit 6),
      calls 1 (.mutexInit 5), calls 0 (.mutexAcquire 0), calls 1 (.mutexAcquire 1)])
    (by decide +kernel)).exclusion 5 0 1 (.pcb ⟨0, by decide⟩) (.pcb ⟨1, by decide⟩) (by decide +kernel)
    (by decide +kernel) (by decide +kernel) (by decide +kernel)
  cases h1

end RiscvKernel.Sched
