import RiscvKernel.Sched.Machine

/-!
# The calls do what they are for

From an accounted machine each call that may be made returns, leaves the machine accounted, and is a step of
the world that the processes see (`simulates`).
-/

namespace RiscvKernel.Sched.Machine

open Lib Mm

variable {s s' : Machine} {m' : Memory} {own own' : ℕ → Owner} {r v va i : ℕ} {Z : Set (ℕ × ℕ)} {H : Set ℕ}

/-! ## What the processes see -/

theorem Accounts.root (A : Accounts own s) (h : s.Has r v) : own r = .root := (A.spaces r).2 h.1

/-- The rings are as before. -/
theorem Accounts.memory (A : Accounts own s) (Y : Tidy m' own') (hroot : ∀ x, own' x = .root ↔ own x = .root)
    (hpipe : ∀ p i, own' p = .pipe i ↔ own p = .pipe i) : Accounts own' { s with memory := m' } :=
  ⟨Y, fun r => (hroot r).trans (A.spaces r), A.ring, A.nodup, fun i p => (hpipe p i).trans (A.frames i p)⟩

/-- The pages elsewhere. -/
theorem Accounts.cell_eq (A : Accounts own s) (E : Effect Z H s.memory own m' own')
    (hroot : ∀ x, own' x = .root ↔ own x = .root) (h : s.Has r v) (hz : (r, v) ∉ Z) : cell m' r v = cell s.memory r v :=
  E.cell (A.root h) ((hroot r).2 (A.root h)) h.2 hz

/-- The pages in a pipe. -/
theorem Accounts.pipe_eq (A : Accounts own s) (E : Effect Z H s.memory own m' own') (hH : ∀ p, own p = .pipe i → p ∉ H) :
    (framesOf (s.pipes i)).map (pageAt m') = (framesOf (s.pipes i)).map (pageAt s.memory) := by
  refine List.map_congr_left fun p hp => ?_
  have ho := (A.frames i p).2 hp
  exact E.pageAt (by rw [ho]; trivial) (hH p ho)

/-- The shared pages. -/
theorem Accounts.slot_eq (A : Accounts own s) (E : Effect Z H s.memory own m' own') (ht : m'.shmTable = s.memory.shmTable)
    (hH : ∀ p i, own p = .shm i → p ∉ H) (i : ℕ) :
    (if i < shmMaxNum then slotOf m' i else none) = if i < shmMaxNum then slotOf s.memory i else none := by
  by_cases hi : i < shmMaxNum
  · rw [if_pos hi, if_pos hi]
    exact E.slotOf A.tidy.space hi (by rw [ht]) (by rw [ht]) (by rw [ht]) fun p => hH p i
  · rw [if_neg hi, if_neg hi]

/-- One page number has something else. -/
theorem Accounts.cells_put (A : Accounts own s) (E : Effect {(r, v)} H s.memory own m' own')
    (hroot : ∀ x, own' x = .root ↔ own x = .root) (h : s.Has r v) {x : Cell} (hx : cell m' r v = x) :
    (fun y u => if s.Has y u then cell m' y u else .none) = ((view s).put r v x).cell := by
  funext y u
  by_cases hyu : (y, u) = (r, v)
  · cases hyu
    rw [World.put_cell_self, if_pos h, hx]
  · rw [World.put_cell_of_ne hyu]
    show _ = if s.Has y u then cell s.memory y u else .none
    by_cases hs : s.Has y u
    · rw [if_pos hs, if_pos hs, A.cell_eq E hroot hs hyu]
    · rw [if_neg hs, if_neg hs]

/-- The processes see nothing. -/
theorem Accounts.unseen (A : Accounts own s) (U : Unseen s.memory own m' own') :
    Accounts own' { s with memory := m' } ∧ view { s with memory := m' } = view s := by
  obtain ⟨Z, H, E, hH⟩ := U.effect
  have hdata {p : ℕ} {o : Owner} (ho : own p = o) (h : ∀ x v, o ≠ .data x v) : p ∉ H := fun hp => by
    obtain ⟨x, v, hx⟩ := hH p hp
    exact h x v (ho.symm.trans hx)
  refine ⟨A.memory (U.tidy A.tidy) U.root U.pipe, World.ext rfl (funext₂ fun r v => ?_) (funext fun i => ?_)
    (funext fun i => ?_)⟩
  · show (if s.Has r v then cell m' r v else .none) = if s.Has r v then cell s.memory r v else .none
    by_cases h : s.Has r v
    · rw [if_pos h, if_pos h, U.cell r v (A.root h) h.2]
    · rw [if_neg h, if_neg h]
  · exact A.slot_eq E U.shm (fun p j hp => hdata hp nofun) i
  · exact A.pipe_eq E fun p hp => hdata hp nofun

/-- What a call has to do. -/
def Follows (s : Machine) (a : MemCall) : Prop :=
  ∃ s', step s a = some s' ∧ (∃ own', Accounts own' s') ∧ World.Step (view s) a (view s')

theorem Accounts.follows_unseen {a : MemCall} (A : Accounts own s) (U : Unseen s.memory own m' own')
    (hstep : step s a = some { s with memory := m' }) (h : ∀ w, World.Step w a w) : Follows s a := by
  obtain ⟨A', hview⟩ := A.unseen U
  refine ⟨_, hstep, ⟨own', A'⟩, ?_⟩
  rw [hview]
  exact h _

/-! ## Private pages -/

/-- A new page. -/
theorem Accounts.placed {q : ℕ} {c : Page} (A : Accounts own s) (h : s.Has r v) (hq : ¬ (own q).Used)
    (P : Placed r v q c s.memory own m' own') :
    Accounts own' { s with memory := m' } ∧ view { s with memory := m' } = (view s).put r v (.own c) := by
  have hne {p : ℕ} {o : Owner} (ho : own p = o) (hu : o.Used) : p ≠ q := by
    rintro rfl
    exact hq (ho ▸ hu)
  have hpipe (p i : ℕ) : own' p = .pipe i ↔ own p = .pipe i := by
    by_cases hp : p = q
    · rw [hp, P.owner]
      exact iff_of_false nofun fun ho => hne ho ⟨nofun, nofun⟩ rfl
    · exact P.pipe p hp i
  have Y' : Tidy m' own' := A.tidy.effect P.effect (by rw [P.shm]; exact A.tidy.users) (by rw [P.shm]; exact A.tidy.keys)
  refine ⟨A.memory Y' P.root hpipe, World.ext rfl (A.cells_put P.effect P.root h P.cell) (funext fun i => ?_)
    (funext fun i => ?_)⟩
  · exact A.slot_eq P.effect P.shm (fun p j hp => hne hp ⟨nofun, nofun⟩) i
  · exact A.pipe_eq P.effect fun p hp => hne hp ⟨nofun, nofun⟩

theorem Accounts.follows_fault (A : Accounts own s) (h : s.MayCall (.fault r va)) (hroom : s.Room) :
    Follows s (.fault r va) := by
  obtain ⟨hhas, hp⟩ := h
  obtain ⟨hu, own', P⟩ := A.tidy.fault (A.root hhas) hhas.2 hp hroom
  obtain ⟨A', hview⟩ := A.placed hhas hu P
  refine ⟨_, rfl, ⟨own', A'⟩, ?_⟩
  have hpage : ((view s).cell r (vpn va)).page = fun off : Fin 4096 => pageOf s.memory r (vpn va) off := by
    show (if s.Has r (vpn va) then cell s.memory r (vpn va) else .none).page = _
    rw [if_pos hhas]
    by_cases hf : Filled s.memory r (vpn va)
    · rw [cell_private (fun hs => hp hs.1) hf]
      rfl
    · rw [cell_none hf]
      funext off
      unfold pageOf
      rw [if_neg hp, if_neg fun hs => hf (Or.inr hs)]
      rfl
  rw [hview, ← hpage]
  exact .fault

theorem Accounts.follows_provide (A : Accounts own s) (h : s.MayCall (.provide r va)) (hroom : s.Room) :
    Follows s (.provide r va) := by
  obtain ⟨hhas, hp⟩ := h
  obtain ⟨hu, own', P⟩ := A.tidy.helper (A.root hhas) hhas.2 hp hroom
  obtain ⟨A', hview⟩ := A.placed hhas hu P
  refine ⟨_, rfl, ⟨own', A'⟩, ?_⟩
  rw [hview]
  exact .provide

/-- What the view says about a private page in memory. -/
theorem view_private (h : s.Has r v) (hp : Present (entry s.memory r v)) (hs : ¬ Shared (entry s.memory r v)) :
    (view s).cell r v = .own (pageAt s.memory (target (entry s.memory r v))) := by
  show (if s.Has r v then cell s.memory r v else .none) = _
  rw [if_pos h, cell_present hp hs]

theorem view_shared (h : s.Has r (shmVpn i)) (hs : Shared (entry s.memory r (shmVpn i))) :
    (view s).cell r (shmVpn i) = .shared i := by
  show (if s.Has r (shmVpn i) then cell s.memory r (shmVpn i) else .none) = _
  rw [if_pos h, cell_shared hs]

theorem Accounts.follows_store {off : Fin 4096} {b : Byte} (A : Accounts own s) (h : s.MayCall (.store r v off b)) :
    Follows s (.store r v off b) := by
  obtain ⟨hhas, hp⟩ := h
  have hr := A.root hhas
  by_cases hs : Shared (entry s.memory r v)
  · obtain ⟨i, rfl, ho⟩ := A.tidy.space.shm.place hr hhas.2 hs
    have hi := (A.tidy.space.shm.owned _ i ho).1
    obtain ⟨E, ho', hcell, hslot⟩ := A.tidy.storeShared hr hi hs off b
    obtain ⟨c, hc⟩ : ∃ c, slotOf s.memory i = some ((s.memory.shmTable i).key, c) := by
      unfold slotOf
      rw [if_pos (A.tidy.space.shm.owned _ i ho).2.1]
      exact ⟨_, rfl⟩
    have hview : (view s).slot i = some ((s.memory.shmTable i).key, c) := (if_pos hi).trans hc
    refine ⟨_, rfl, ⟨own, A.memory (A.tidy.effect E A.tidy.users A.tidy.keys) (fun _ => Iff.rfl) fun _ _ => Iff.rfl⟩, ?_⟩
    have hW : World.Step (view s) (.store r (shmVpn i) off b) _ := .storeShared (view_shared hhas hs) hview
    refine hW.congr (World.ext rfl (funext₂ fun x w => ?_) (funext fun j => ?_) (funext fun j => ?_))
    · show (if s.Has x w then cell s.memory x w else .none) = if s.Has x w then _ else .none
      by_cases hx : s.Has x w
      · rw [if_pos hx, if_pos hx, hcell x w (A.root hx) hx.2]
      · rw [if_neg hx, if_neg hx]
    · show Function.update (view s).slot i (some ((s.memory.shmTable i).key, Function.update c off b)) j =
        if j < shmMaxNum then slotOf _ j else none
      by_cases hj : j = i
      · rw [hj, Function.update_self, if_pos hi, hslot, hc]
        rfl
      · rw [Function.update_of_ne hj]
        show (if j < shmMaxNum then slotOf s.memory j else none) = _
        by_cases hjm : j < shmMaxNum
        · rw [if_pos hjm, if_pos hjm]
          refine (E.slotOf A.tidy.space hjm rfl rfl rfl fun p hpj hpH => hj ?_).symm
          rw [Set.mem_singleton_iff.1 hpH, ho'] at hpj
          cases hpj
          rfl
        · rw [if_neg hjm, if_neg hjm]
    · refine (A.pipe_eq E fun p hpj hpH => ?_).symm
      rw [Set.mem_singleton_iff.1 hpH, ho'] at hpj
      cases hpj
  · obtain ⟨E, ho, hcell⟩ := A.tidy.storeOwn hr hhas.2 hp hs off b
    have hne {p : ℕ} {o : Owner} (hp : own p = o) (hno : o ≠ .data r v) :
        p ∉ ({target (entry s.memory r v)} : Set ℕ) := fun hpH => by
      rw [Set.mem_singleton_iff.1 hpH, ho] at hp
      exact hno hp.symm
    refine ⟨_, rfl, ⟨own, A.memory (A.tidy.effect E A.tidy.users A.tidy.keys) (fun _ => Iff.rfl) fun _ _ => Iff.rfl⟩, ?_⟩
    have hW : World.Step (view s) (.store r v off b) _ := .store (view_private hhas hp hs)
    refine hW.congr (World.ext rfl (A.cells_put E (fun _ => Iff.rfl) hhas hcell).symm (funext fun j => ?_) (funext fun j => ?_))
    · exact (A.slot_eq E rfl (fun p j hpj => hne hpj nofun) j).symm
    · exact (A.pipe_eq E fun p hpj => hne hpj nofun).symm

theorem Accounts.follows_track {pid : ℤ} (A : Accounts own s) (h : s.MayCall (.track r va pid)) :
    Follows s (.track r va pid) := by
  obtain ⟨hhas, hp, hs, hno⟩ := h
  have hunlisted : Unlisted s.memory own r (vpn va) := fun i hi hv hl => hno i hi hv hl.kva.symm
  obtain ⟨ok, m', own', heq, U⟩ := A.tidy.track (A.root hhas) hhas.2 ⟨hhas.2, hp, hs, rfl⟩ hunlisted pid
  refine A.follows_unseen U ?_ fun _ => .track
  show (addToActiveList _ va pid r s.memory).map _ = _
  rw [heq]
  rfl

theorem Accounts.follows_untrack {kva : ℕ} (A : Accounts own s) : Follows s (.untrack kva) := by
  obtain ⟨m', heq⟩ := A.tidy.untrack_some kva
  refine A.follows_unseen (A.tidy.untrack heq) ?_ fun _ => .untrack
  show (removeFromActiveList kva s.memory).map _ = _
  rw [heq]
  rfl

theorem Accounts.follows_touch (A : Accounts own s) (h : s.MayCall (.touch r v)) : Follows s (.touch r v) :=
  A.follows_unseen (A.tidy.touch (A.root h) h.2) rfl fun _ => .touch

/-! ## Pipes -/

theorem Accounts.page_eq (A : Accounts own s) (E : Effect Z H s.memory own m' own') {p : ℕ}
    (hp : p ∈ framesOf (s.pipes i)) (hH : p ∉ H) : pageAt m' p = pageAt s.memory p := by
  have ho := (A.frames i p).2 hp
  exact E.pageAt (by rw [ho]; trivial) hH

/-- The page comes last. -/
theorem Accounts.given {q : ℕ} (A : Accounts own s) (h : s.Has r v) (hroom : (s.pipes i).dataCount < pipeBufferSize)
    (G : Given r v q i s.memory own m' own') :
    Accounts own' { s with memory := m', pipes := Function.update s.pipes i (pushPage (kva2pa q) (s.pipes i)) } ∧
      view { s with memory := m', pipes := Function.update s.pipes i (pushPage (kva2pa q) (s.pipes i)) } =
        { (view s).put r v .none with
          pipe := Function.update (view s).pipe i ((view s).pipe i ++ [fun off : Fin 4096 => pageOf s.memory r v off]) } := by
  have hk : pa2kva (kva2pa q) = q :=
    pa2kva_kva2pa (G.effect.space.heap.isPage (by rw [G.owner]; exact nofun))
  have hframes : framesOf (pushPage (kva2pa q) (s.pipes i)) = framesOf (s.pipes i) ++ [q] := by
    rw [framesOf_push (A.ring i) hroom, hk]
  have hnot {o : Owner} (hu : o.Used) (hno : o ≠ .data r v) : own q ≠ o := by
    rintro rfl
    exact G.was.elim hno fun h => h hu
  have hq {j : ℕ} : q ∉ framesOf (s.pipes j) := fun h => hnot (o := .pipe j) ⟨nofun, nofun⟩ nofun ((A.frames j q).2 h)
  refine ⟨⟨A.tidy.effect G.effect (by rw [G.shm]; exact A.tidy.users) (by rw [G.shm]; exact A.tidy.keys),
    fun x => (G.root x).trans (A.spaces x), fun j => ?_, fun j => ?_, fun j p => ?_⟩,
    World.ext rfl (A.cells_put G.effect G.root h G.cell) (funext fun j => ?_) (funext fun j => ?_)⟩
  · show RingOk (Function.update s.pipes i _ j)
    by_cases hj : j = i
    · rw [hj, Function.update_self]
      exact (A.ring i).push hroom (Nat.mod_lt _ (by norm_num))
    · rw [Function.update_of_ne hj]
      exact A.ring j
  · show (framesOf (Function.update s.pipes i _ j)).Nodup
    by_cases hj : j = i
    · rw [hj, Function.update_self, hframes]
      exact List.nodup_append.2 ⟨A.nodup i, List.nodup_singleton q, fun x hx y hy hxy => hq (j := i) (by
        rw [← List.mem_singleton.1 hy, ← hxy]
        exact hx)⟩
    · rw [Function.update_of_ne hj]
      exact A.nodup j
  · show own' p = .pipe j ↔ p ∈ framesOf (Function.update s.pipes i _ j)
    by_cases hp : p = q
    · rw [hp, G.owner]
      by_cases hj : j = i
      · rw [hj, Function.update_self, hframes]
        exact iff_of_true rfl (List.mem_append_right _ List.mem_cons_self)
      · rw [Function.update_of_ne hj]
        exact iff_of_false (fun h => hj (by cases h; rfl)) hq
    · rw [G.pipe p hp j, A.frames j p]
      by_cases hj : j = i
      · rw [hj, Function.update_self, hframes, List.mem_append, List.mem_singleton, or_iff_left hp]
      · rw [Function.update_of_ne hj]
  · exact A.slot_eq G.effect G.shm (fun p k hp hpH => hnot (o := .shm k) ⟨nofun, nofun⟩ nofun
      (Set.mem_singleton_iff.1 hpH ▸ hp)) j
  · show (framesOf (Function.update s.pipes i _ j)).map (pageAt m') = Function.update (view s).pipe i _ j
    have hsame {k : ℕ} : (framesOf (s.pipes k)).map (pageAt m') = (view s).pipe k :=
      List.map_congr_left fun p hp => A.page_eq G.effect hp fun h => hq (Set.mem_singleton_iff.1 h ▸ hp)
    by_cases hj : j = i
    · rw [hj, Function.update_self, Function.update_self, hframes, List.map_append, hsame, List.map_singleton, G.contents]
    · rw [Function.update_of_ne hj, Function.update_of_ne hj, hsame]

theorem Accounts.follows_give (A : Accounts own s) (h : s.MayCall (.give r va i)) (hroom : s.Room) :
    Follows s (.give r va i) := by
  obtain ⟨hhas, hring⟩ := h
  have hr := A.root hhas
  unfold Room at hroom
  have hcell : (view s).cell r (vpn va) = cell s.memory r (vpn va) := if_pos hhas
  by_cases hg : Givable s.memory r (vpn va)
  · obtain ⟨q, m', own1, heq, U⟩ := unmapPage_unmapped A.tidy hr hhas.2 hg (by omega)
    obtain ⟨A', hview⟩ := A.given hhas hring (U.give A.tidy i)
    refine ⟨_, ?_, ⟨_, A'⟩, ?_⟩
    · show (unmapPage va r s.memory).map _ = _
      rw [heq]
      rfl
    · rw [hview]
      refine .give ?_
      rw [hcell]
      refine cell_private (fun hs => ?_) (hg.imp And.left fun h => h)
      exact hg.elim (fun h => h.2 hs) fun h => h.1 hs.1
  · refine ⟨s, ?_, ⟨own, A⟩, .notGiven fun c hc => hg ?_⟩
    · show (unmapPage va r s.memory).map _ = _
      rcases unmapPage_cases va r s.memory with ⟨-, heq⟩ | ⟨pte, -, he, ⟨hp, hs, -⟩ | ⟨hs, -⟩⟩
      · rw [heq]
        rfl
      · exact absurd (Or.inl ⟨he ▸ hp, he ▸ hs⟩) hg
      · exact absurd (Or.inr (he ▸ hs)) hg
    · rw [hcell] at hc
      unfold cell at hc
      split_ifs at hc with h1 h2
      exact h2.imp (fun h => ⟨h, h1⟩) fun h => h

/-- The first page goes. -/
theorem Accounts.taken {q : ℕ} (A : Accounts own s) (h : s.Has r v) (hring : (s.pipes i).dataCount ≠ 0)
    (hq : q = pa2kva ((s.pipes i).pageBuffer (s.pipes i).tail))
    (P : Placed r v q (pageAt s.memory q) s.memory own m' own') :
    Accounts own' { s with memory := m', pipes := Function.update s.pipes i (popPage (s.pipes i)) } ∧
      (view s).pipe i = pageAt s.memory q :: (framesOf (popPage (s.pipes i))).map (pageAt s.memory) ∧
      view { s with memory := m', pipes := Function.update s.pipes i (popPage (s.pipes i)) } =
        { (view s).put r v (.own (pageAt s.memory q)) with
          pipe := Function.update (view s).pipe i ((framesOf (popPage (s.pipes i))).map (pageAt s.memory)) } := by
  have hframes : framesOf (s.pipes i) = q :: framesOf (popPage (s.pipes i)) := by
    rw [framesOf_pop (A.ring i) hring, hq]
  have ho : own q = .pipe i := (A.frames i q).2 (by rw [hframes]; exact List.mem_cons_self)
  have hnd := A.nodup i
  rw [hframes, List.nodup_cons] at hnd
  have hne {p : ℕ} {o : Owner} (hp : own p = o) (hno : o ≠ .pipe i) : p ≠ q := by
    rintro rfl
    exact hno (hp.symm.trans ho)
  have hother {j p : ℕ} (hj : j ≠ i) (hp : p ∈ framesOf (s.pipes j)) : p ≠ q :=
    hne ((A.frames j p).2 hp) fun h => hj (by cases h; rfl)
  refine ⟨⟨A.tidy.effect P.effect (by rw [P.shm]; exact A.tidy.users) (by rw [P.shm]; exact A.tidy.keys),
    fun x => (P.root x).trans (A.spaces x), fun j => ?_, fun j => ?_, fun j p => ?_⟩,
    by show (framesOf (s.pipes i)).map _ = _; rw [hframes, List.map_cons],
    World.ext rfl (A.cells_put P.effect P.root h P.cell) (funext fun j => ?_) (funext fun j => ?_)⟩
  · show RingOk (Function.update s.pipes i _ j)
    by_cases hj : j = i
    · rw [hj, Function.update_self]
      exact (A.ring i).pop hring
    · rw [Function.update_of_ne hj]
      exact A.ring j
  · show (framesOf (Function.update s.pipes i _ j)).Nodup
    by_cases hj : j = i
    · rw [hj, Function.update_self]
      exact hnd.2
    · rw [Function.update_of_ne hj]
      exact A.nodup j
  · show own' p = .pipe j ↔ p ∈ framesOf (Function.update s.pipes i _ j)
    by_cases hj : j = i
    · rw [hj, Function.update_self]
      by_cases hp : p = q
      · rw [hp, P.owner]
        exact iff_of_false nofun hnd.1
      · rw [P.pipe p hp i, A.frames i p, hframes, List.mem_cons, or_iff_right hp]
    · rw [Function.update_of_ne hj]
      by_cases hp : p = q
      · rw [hp, P.owner]
        exact iff_of_false nofun fun h => hother hj h rfl
      · rw [P.pipe p hp j, A.frames j p]
  · exact A.slot_eq P.effect P.shm (fun p k hp => hne hp nofun) j
  · show (framesOf (Function.update s.pipes i _ j)).map (pageAt m') = Function.update (view s).pipe i _ j
    by_cases hj : j = i
    · rw [hj, Function.update_self, Function.update_self]
      refine List.map_congr_left fun p hp => A.page_eq P.effect (i := i) (by rw [hframes]; exact List.mem_cons_of_mem _ hp) ?_
      rintro rfl
      exact hnd.1 hp
    · rw [Function.update_of_ne hj, Function.update_of_ne hj]
      exact List.map_congr_left fun p hp => A.page_eq P.effect hp (hother hj hp)

theorem Accounts.follows_take {pid : ℤ} (A : Accounts own s) (h : s.MayCall (.take r va i pid)) (hroom : s.Room) :
    Follows s (.take r va i pid) := by
  obtain ⟨hhas, hring, hempty⟩ := h
  have hr := A.root hhas
  unfold Room at hroom
  have hpa := kva2pa_pa2kva ((A.ring i).first hring)
  have ho : own (pa2kva ((s.pipes i).pageBuffer (s.pipes i).tail)) = .pipe i :=
    (A.frames i _).2 (by rw [framesOf_pop (A.ring i) hring]; exact List.mem_cons_self)
  obtain ⟨own1, P, hunlisted⟩ := Sched.taken A.tidy hr hhas.2 ho hempty (by omega)
  obtain ⟨A1, hpipe, hview⟩ := A.taken hhas hring rfl P
  obtain ⟨hr1, hpriv⟩ := P.effect.data P.owner (Or.inl rfl)
  obtain ⟨ok, m2, own2, heq, U⟩ := A1.tidy.track hr1 hhas.2 hpriv hunlisted pid
  obtain ⟨A2, hview2⟩ := A1.unseen U
  refine ⟨_, ?_, ⟨own2, A2⟩, ?_⟩
  · dsimp only at heq
    rw [hpa] at heq
    show (addToActiveList _ va pid r (mapPage va _ r userFlags s.memory)).map _ = _
    rw [heq]
    rfl
  · rw [hview2, hview]
    exact .take hpipe

/-! ## Address spaces -/

theorem Accounts.follows_spawn (A : Accounts own s) (hroom : s.Room) : Follows s .spawn := by
  unfold Room at hroom
  obtain ⟨E, hu, hshm⟩ := A.tidy.spawn (by omega)
  have hnew : (allocPage 1 s.memory).1 ∉ s.spaces := fun h => hu (by
    rw [(A.spaces _).2 h]
    exact ⟨nofun, nofun⟩)
  generalize hq : (allocPage 1 s.memory).1 = q at *
  have hother {x : ℕ} (hx : x ≠ q) : withRoot own q x = own x := withRoot_ne hx
  have hroot (x : ℕ) : withRoot own q x = .root ↔ x ∈ insert q s.spaces := by
    rw [Finset.mem_insert]
    by_cases hx : x = q
    · rw [hx, withRoot_self]
      exact iff_of_true rfl (Or.inl rfl)
    · rw [hother hx, A.spaces x, or_iff_right hx]
  have hpipe (p j : ℕ) : withRoot own q p = .pipe j ↔ own p = .pipe j := by
    by_cases hp : p = q
    · rw [hp, withRoot_self]
      exact iff_of_false nofun fun h => hu (by rw [h]; exact ⟨nofun, nofun⟩)
    · rw [hother hp]
  refine ⟨{ s with memory := newSpace s.memory, spaces := insert q s.spaces }, by rw [← hq]; rfl, ⟨withRoot own q,
    A.tidy.effect E (by rw [hshm]; exact A.tidy.users) (by rw [hshm]; exact A.tidy.keys), hroot, A.ring, A.nodup,
    fun j p => (hpipe p j).trans (A.frames j p)⟩, ?_⟩
  refine (World.Step.spawn (w := view s) hnew).congr (World.ext rfl (funext₂ fun x v => ?_) (funext fun j => ?_)
    (funext fun j => ?_))
  · show (if s.Has x v then cell s.memory x v else .none) =
      if x ∈ insert q s.spaces ∧ v < userPages then cell (newSpace s.memory) x v else .none
    by_cases hx : x = q
    · rw [if_neg fun h => hnew (hx ▸ h.1), hx]
      by_cases hv : v < userPages
      · rw [if_pos ⟨Finset.mem_insert_self _ _, hv⟩]
        refine (E.cell_fresh (fun h => hnew ((A.spaces q).1 h)) withRoot_self hv).symm
      · rw [if_neg fun h => hv h.2]
    · have hmem : x ∈ insert q s.spaces ↔ x ∈ s.spaces := by rw [Finset.mem_insert, or_iff_right hx]
      by_cases h : s.Has x v
      · rw [if_pos h, if_pos ⟨hmem.2 h.1, h.2⟩, E.cell (A.root h) ((hother hx).trans (A.root h)) h.2 id]
      · rw [if_neg h, if_neg fun h' => h ⟨hmem.1 h'.1, h'.2⟩]
  · exact (A.slot_eq E hshm (fun _ _ _ => id) j).symm
  · exact (A.pipe_eq E fun _ _ => id).symm

/-- The shared pages are those that somebody has. -/
theorem Accounts.valid_iff (A : Accounts own s) (hi : i < shmMaxNum) : (s.memory.shmTable i).valid ↔ (view s).Used i := by
  constructor
  · intro hv
    obtain ⟨rs, -, hrs, hc⟩ := A.tidy.space.shm.count i hi hv
    have hpos := A.tidy.users i hi hv
    obtain ⟨x, hx⟩ : ∃ x, x ∈ rs := List.exists_mem_of_length_pos (by omega)
    obtain ⟨hr, hs⟩ := (hrs x).1 hx
    have hxs := (A.spaces x).1 hr
    exact ⟨x, hxs, view_shared ⟨hxs, shmVpn_lt hi⟩ hs⟩
  · rintro ⟨x, hx, hc⟩
    have hcell : cell s.memory x (shmVpn i) = .shared i := by
      have hc : (if s.Has x (shmVpn i) then cell s.memory x (shmVpn i) else .none) = .shared i := hc
      rwa [if_pos ⟨hx, shmVpn_lt hi⟩] at hc
    by_contra hv
    have hs := A.tidy.space.shm.no_user ((A.spaces x).2 hx) hi hv
    unfold cell at hcell
    rw [if_neg hs] at hcell
    split_ifs at hcell

/-- The shared pages that nobody has any longer go away. -/
theorem Accounts.swept (A : Accounts own s) {w : World} (hspaces : w.spaces = s.spaces) (hcell : w.cell = (view s).cell)
    (hpipe : w.pipe = (view s).pipe)
    (hslot : ∀ i < shmMaxNum, (s.memory.shmTable i).valid → w.slot i = slotOf s.memory i)
    (hout : ∀ i, ¬ i < shmMaxNum → w.slot i = none) : w.sweep = view s := by
  have hused (i : ℕ) : w.Used i ↔ (view s).Used i := by
    unfold World.Used
    rw [hspaces, hcell]
    rfl
  refine World.ext hspaces hcell (funext fun i => ?_) hpipe
  show _ = if i < shmMaxNum then slotOf s.memory i else none
  by_cases hi : i < shmMaxNum
  · rw [if_pos hi]
    by_cases hv : (s.memory.shmTable i).valid
    · rw [World.sweep_slot_of_used ((hused i).2 ((A.valid_iff hi).1 hv)), hslot i hi hv]
    · rw [World.sweep_slot_of_not_used fun h => hv ((A.valid_iff hi).2 ((hused i).1 h))]
      unfold slotOf
      rw [if_neg hv]
  · rw [if_neg hi]
    by_cases hu : w.Used i
    · rw [World.sweep_slot_of_used hu, hout i hi]
    · rw [World.sweep_slot_of_not_used hu]

theorem Accounts.follows_exit (A : Accounts own s) (h : s.MayCall (.exit r)) : Follows s (.exit r) := by
  obtain ⟨hr, L⟩ := h
  have hr := (A.spaces r).2 hr
  obtain ⟨m', own', heq, E, hroot, D, E'⟩ := A.tidy.exit hr L
  -- a slot keeps its key and its page, or nobody has it any longer
  have hslot (i : ℕ) : (m'.shmTable i).key = (s.memory.shmTable i).key ∧ (m'.shmTable i).pa = (s.memory.shmTable i).pa ∧
      ((m'.shmTable i).valid → (s.memory.shmTable i).valid ∧
        ((s.memory.shmTable i).refCount = (m'.shmTable i).refCount ∨
          (s.memory.shmTable i).refCount = (m'.shmTable i).refCount + 1 ∧ (s.memory.shmTable i).refCount ≠ 1)) := by
    by_cases hs : i < shmMaxNum ∧ Shared (entry s.memory r (shmVpn i))
    · rw [D.shared i hs.1 hs.2]
      refine ⟨rfl, rfl, fun hv => ?_⟩
      obtain ⟨hv, hne⟩ := Bool.and_eq_true_iff.1 hv
      exact ⟨hv, Or.inr ⟨(Int.sub_add_cancel _ _).symm, of_decide_eq_true hne⟩⟩
    · rw [D.unshared i hs]
      exact ⟨rfl, rfl, fun hv => ⟨hv, Or.inl rfl⟩⟩
  have Y' : Tidy m' own' := by
    refine A.tidy.effect E (fun i hi hv => ?_) fun i hi j hj hv hv' hk => ?_
    · obtain ⟨hv0, h⟩ := (hslot i).2.2 hv
      have hpos := A.tidy.users i hi hv0
      omega
    · rw [(hslot i).1, (hslot j).1] at hk
      exact A.tidy.keys i hi j hj ((hslot i).2.2 hv).1 ((hslot j).2.2 hv').1 hk
  have hpipe (p j : ℕ) : own' p = .pipe j ↔ own p = .pipe j := by
    by_cases hp : OwnedBy s.memory own r p
    · rw [E'.gone p hp]
      refine iff_of_false nofun fun h => ?_
      rcases hp.cases A.tidy.space hr with ⟨ho, -⟩ | ho | ⟨v, ho⟩ | ⟨k, -, -, ho⟩
      · rw [h] at ho
        cases ho
      · rw [h] at ho
        exact ho
      · rw [h] at ho
        cases ho
      · rw [h] at ho
        cases ho
    · rw [E'.kept p hp]
  have A' : Accounts own' { s with memory := m', spaces := s.spaces.erase r } := by
    refine ⟨Y', fun x => ?_, A.ring, A.nodup, fun j p => (hpipe p j).trans (A.frames j p)⟩
    rw [hroot x, A.spaces x]
    exact (and_comm.trans Finset.mem_erase.symm)
  have hhas {x v : ℕ} : Has { s with memory := m', spaces := s.spaces.erase r } x v ↔ x ≠ r ∧ s.Has x v := by
    show x ∈ s.spaces.erase r ∧ v < userPages ↔ _
    rw [Finset.mem_erase, and_assoc]
    rfl
  refine ⟨{ s with memory := m', spaces := s.spaces.erase r }, ?_, ⟨own', A'⟩, World.Step.exit.congr (A'.swept rfl
    (funext₂ fun x v => ?_) (funext fun j => ?_) (fun i hi hv => ?_) fun i hi => if_neg hi)⟩
  · show (freeAllPages r r s.memory).map _ = _
    rw [heq]
    rfl
  · show Function.update (view s).cell r (fun _ => .none) x v =
      if Has { s with memory := m', spaces := s.spaces.erase r } x v then cell m' x v else .none
    by_cases hx : x = r
    · rw [hx, Function.update_self, if_neg fun h => (hhas.1 h).1 rfl]
    · rw [Function.update_of_ne hx]
      show (if s.Has x v then cell s.memory x v else .none) = _
      by_cases h : s.Has x v
      · rw [if_pos h, if_pos (hhas.2 ⟨hx, h⟩)]
        exact (E.cell (A.root h) ((hroot x).2 ⟨A.root h, hx⟩) h.2 id).symm
      · rw [if_neg h, if_neg fun h' => h (hhas.1 h').2]
  · refine (A.pipe_eq E fun p hp h => ?_).symm
    have := (hpipe p j).2 hp
    rw [E'.gone p h] at this
    cases this
  · show (if i < shmMaxNum then slotOf s.memory i else none) = slotOf m' i
    obtain ⟨hk, hpa, hv0⟩ := hslot i
    rw [if_pos hi]
    refine (E.slotOf A.tidy.space hi (by rw [hv, (hv0 hv).1]) hk hpa fun p hp h => ?_).symm
    -- the page of the slot is still in use
    obtain ⟨q, hq, hqpa⟩ := Y'.space.shm.page i hi hv
    have hpq : p = q := by
      rw [← (A.tidy.space.shm.owned p i hp).2.2, ← (Y'.space.shm.owned q i hq).2.2, hpa]
    rw [← hpq, E'.gone p h] at hq
    cases hq

/-! ## Shared pages -/

/-- What the view says about a slot that is in use. -/
theorem view_slot (hi : i < shmMaxNum) (hv : (s.memory.shmTable i).valid) :
    (view s).slot i = some ((s.memory.shmTable i).key, pageAt s.memory (pa2kva (s.memory.shmTable i).pa)) := by
  show (if i < shmMaxNum then slotOf s.memory i else none) = _
  rw [if_pos hi, slotOf, if_pos hv]

theorem Accounts.follows_shmGet {key : ℤ} (A : Accounts own s) (h : s.MayCall (.shmGet r key)) (hroom : s.Room) :
    Follows s (.shmGet r key) := by
  obtain ⟨hmem, hempty⟩ := h
  rcases A.tidy.shmGet ((A.spaces r).2 hmem) key hempty hroom with ⟨hnone, heq⟩ | ⟨i, hi, -, -, H, own', G⟩
  · refine ⟨s, ?_, ⟨own, A⟩, .noSlot fun i hi => ?_⟩
    · show some { s with memory := (shmPageGet key r s.memory).2 } = some s
      rw [heq]
    · obtain ⟨hv, hk⟩ := shmSlot_none hnone hi
      exact ⟨_, _, view_slot hi hv, hk⟩
  · have hhas : s.Has r (shmVpn i) := ⟨hmem, shmVpn_lt hi⟩
    have hH {p : ℕ} {o : Owner} (hp : own p = o) (hu : o.Used) : p ∉ H := fun h => by
      rcases G.slot with ⟨-, -, hH, -⟩ | ⟨-, -, hH, -⟩
      · rw [hH] at h
        exact h
      · exact hH p h (hp ▸ hu)
    have hcells := (A.cells_put G.effect G.root hhas G.cell).symm
    have hpipes (j : ℕ) := (A.pipe_eq (i := j) G.effect fun p hp => hH hp ⟨nofun, nofun⟩).symm
    refine ⟨_, rfl, ⟨own', A.memory (G.tidy A.tidy) G.root G.pipe⟩, ?_⟩
    generalize (shmPageGet key r s.memory).2 = m' at *
    rcases G.slot with ⟨hv, hk, -, ht⟩ | ⟨hv, hno, -, pa, ht⟩
    · have hview := view_slot hi hv
      rw [hk] at hview
      refine (World.Step.attach hview).congr (World.ext rfl hcells (funext fun j => ?_) (funext hpipes))
      have hsame : (m'.shmTable j).valid = (s.memory.shmTable j).valid ∧ (m'.shmTable j).key = (s.memory.shmTable j).key ∧
          (m'.shmTable j).pa = (s.memory.shmTable j).pa := by
        rw [ht]
        by_cases hj : j = i
        · rw [hj, Function.update_self]
          exact ⟨rfl, rfl, rfl⟩
        · rw [Function.update_of_ne hj]
          exact ⟨rfl, rfl, rfl⟩
      show (if j < shmMaxNum then slotOf s.memory j else none) = if j < shmMaxNum then slotOf m' j else none
      by_cases hj : j < shmMaxNum
      · rw [if_pos hj, if_pos hj]
        exact (G.effect.slotOf A.tidy.space hj hsame.1 hsame.2.1 hsame.2.2 fun p hp => hH hp ⟨nofun, nofun⟩).symm
      · rw [if_neg hj, if_neg hj]
    · have hfree : (view s).slot i = none := by
        show (if i < shmMaxNum then slotOf s.memory i else none) = none
        rw [if_pos hi, slotOf, if_neg hv]
      have hkeys (j : ℕ) (k : ℤ) (c : Page) (h : (view s).slot j = some (k, c)) : k ≠ key := by
        have h : (if j < shmMaxNum then slotOf s.memory j else none) = some (k, c) := h
        by_cases hj : j < shmMaxNum
        · rw [if_pos hj, slotOf] at h
          by_cases hvj : (s.memory.shmTable j).valid
          · rw [if_pos hvj] at h
            cases h
            exact hno j hj hvj
          · rw [if_neg hvj] at h
            cases h
        · rw [if_neg hj] at h
          cases h
      refine (World.Step.newSlot (c := pageAt m' (pa2kva pa)) hkeys hfree).congr
        (World.ext rfl hcells (funext fun j => ?_) (funext hpipes))
      show Function.update (view s).slot i (some (key, pageAt m' (pa2kva pa))) j =
        if j < shmMaxNum then slotOf m' j else none
      by_cases hji : j = i
      · rw [hji, Function.update_self, if_pos hi, slotOf, ht, Function.update_self]
        rfl
      · rw [Function.update_of_ne hji]
        show (if j < shmMaxNum then slotOf s.memory j else none) = _
        by_cases hj : j < shmMaxNum
        · have htj : m'.shmTable j = s.memory.shmTable j := by rw [ht, Function.update_of_ne hji]
          rw [if_pos hj, if_pos hj]
          exact (G.effect.slotOf A.tidy.space hj (by rw [htj]) (by rw [htj]) (by rw [htj])
            fun p hp => hH hp ⟨nofun, nofun⟩).symm
        · rw [if_neg hj, if_neg hj]

theorem Accounts.follows_shmDt {addr : ℕ} (A : Accounts own s) (h : s.MayCall (.shmDt r addr)) :
    Follows s (.shmDt r addr) := by
  obtain ⟨hhas, hp | ⟨i, hi, rfl, hs⟩⟩ := h
  · refine ⟨s, ?_, ⟨own, A⟩, .notAttached fun i hi => ?_⟩
    · show some { s with memory := shmPageDt addr r s.memory } = some s
      rw [shmPageDt_absent hp]
    · have hi : (if s.Has r (vpn addr) then cell s.memory r (vpn addr) else .none) = .shared i := hi
      rw [if_pos hhas, cell, if_neg fun hs => hp hs.1] at hi
      split_ifs at hi
  · rw [shmVpn_va hi] at hhas
    obtain ⟨own', H, E, hroot, hpipe, hcell, ht, hH⟩ := A.tidy.shmDt (A.root hhas) hi hs
    have hshm {p : ℕ} (hp : p ∈ H) : (s.memory.shmTable i).refCount = 1 ∧ own p = .shm i := by
      rcases hH with ⟨-, hH⟩ | ⟨h1, hH⟩
      · rw [hH] at hp
        exact absurd hp id
      · exact ⟨h1, hH p hp⟩
    have A' := A.memory (A.tidy.detached E ht) hroot hpipe
    refine ⟨_, rfl, ⟨own', A'⟩, (World.Step.detach (view_shared hhas hs)).congr (A'.swept rfl
      (A.cells_put E hroot hhas hcell).symm (funext fun j => (A.pipe_eq E fun p hp h => ?_).symm) (fun j hj hv => ?_)
      fun j hj => if_neg hj)⟩
    · rw [(hshm h).2] at hp
      cases hp
    · change ((shmPageDt (shmVaBase + i * 4096) r s.memory).shmTable j).valid = true at hv
      show (if j < shmMaxNum then slotOf s.memory j else none) = slotOf (shmPageDt (shmVaBase + i * 4096) r s.memory) j
      generalize shmPageDt (shmVaBase + i * 4096) r s.memory = m' at *
      rw [if_pos hj]
      rw [ht] at hv
      by_cases hji : j = i
      · subst hji
        rw [Function.update_self] at hv
        obtain ⟨hv, hne⟩ := Bool.and_eq_true_iff.1 hv
        have htj : m'.shmTable j = detached (s.memory.shmTable j) := by rw [ht, Function.update_self]
        have hone := of_decide_eq_true hne
        refine (E.slotOf A.tidy.space hj ?_ (by rw [htj]; rfl) (by rw [htj]; rfl) fun p _ h => hone (hshm h).1).symm
        rw [htj, hv]
        exact Bool.and_eq_true_iff.2 ⟨hv, hne⟩
      · have htj : m'.shmTable j = s.memory.shmTable j := by rw [ht, Function.update_of_ne hji]
        refine (E.slotOf A.tidy.space hj (by rw [htj]) (by rw [htj]) (by rw [htj]) fun p hp h => hji ?_).symm
        rw [(hshm h).2] at hp
        cases hp
        rfl

/-! ## Every call -/

def Accounted (s : Machine) : Prop := ∃ own, Accounts own s

/-- **Every call does what it is for.** -/
theorem simulates : Refine.Simulates step Ok Accounted view World.Step := by
  refine ⟨fun {s a} hs hok => ?_⟩
  obtain ⟨own, A⟩ := hs
  obtain ⟨hroom, h⟩ := hok
  cases a with
  | spawn => exact A.follows_spawn hroom
  | exit r => exact A.follows_exit h
  | fault r va => exact A.follows_fault h hroom
  | provide r va => exact A.follows_provide h hroom
  | touch r v => exact A.follows_touch h
  | store r v off b => exact A.follows_store h
  | track r va pid => exact A.follows_track h
  | untrack kva => exact A.follows_untrack
  | shmGet r key => exact A.follows_shmGet h hroom
  | shmDt r addr => exact A.follows_shmDt h
  | give r va i => exact A.follows_give h hroom
  | take r va i pid => exact A.follows_take h hroom

end RiscvKernel.Sched.Machine
