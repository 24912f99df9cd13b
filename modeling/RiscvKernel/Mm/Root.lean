import RiscvKernel.Mm.Calls

/-!
# New address spaces

After start-up the memory is in order and no page is in use. A new address space begins with a copy of the
kernel's root table, which has no user entries.
-/

namespace RiscvKernel.Mm

open Lib

/-- The memory after start-up. -/
structure MemoryStart (m : Memory) : Prop where
  list : m.freePageList = 0
  listCount : m.freePageListCount = 0
  curr : m.kernMemCurr = freememKernel
  valid : ∀ i < maxAllowablePages, (m.activePages i).valid = false
  count : m.activePageCount = 0
  clock : m.clockHead < maxAllowablePages
  shm : ∀ i < shmMaxNum, (m.shmTable i).valid = false ∧ (m.shmTable i).va = shmVaBase + i * 4096
  kernel : ∀ i < 256, ¬ Present (readPte m (pa2kva pgdirPa + 8 * i))

section start
variable {m : Memory}

/-- **After start-up** no page is in use. -/
theorem MemoryStart.spaceOk (h : MemoryStart m) : SpaceOk m fun _ => .unused := by
  refine ⟨⟨[], [], ⟨?_, by simp, by simp, h.list, h.listCount⟩, fun p => by simp, fun p hp => absurd rfl hp.1⟩, ?_, ?_,
    ?_, ?_, h.kernel⟩
  · show m.kernMemCurr % pageSize = 0 ∧ freememKernel ≤ m.kernMemCurr ∧ m.kernMemCurr ≤ 2 ^ 64
    rw [h.curr]
    decide
  · refine ⟨fun {r a o} hp _ => ?_, fun hb => absurd hb id, fun hp _ => by cases hp⟩
    cases hp with
    | mid hr _ => cases hr
    | tab hp _ => cases hp
  · refine ⟨fun i hi hv => ?_, fun i hi j _ hv => ?_, ?_, h.clock⟩
    · rw [h.valid i hi] at hv
      cases hv
    · rw [h.valid i hi] at hv
      cases hv
    · rw [h.count]
      exact Int.natCast_nonneg _
  · exact ⟨fun hr => (by cases hr), fun hr => (by cases hr)⟩
  · refine ⟨fun i hi => (h.shm i hi).2, fun i hi hv => ?_, fun p i hp => (by cases hp), fun hr => (by cases hr),
      fun i hi hv => ?_⟩
    · rw [(h.shm i hi).1] at hv
      cases hv
    · rw [(h.shm i hi).1] at hv
      cases hv

/-- A memory of zeros. -/
def startMemory : Memory := { freshMemory with
  mem := fun _ => 0#8
  shmTable := fun i => ⟨0, shmVaBase + i * 4096, 0, 0, false⟩ }

theorem startMemory_start : MemoryStart startMemory :=
  ⟨rfl, rfl, rfl, fun _ _ => rfl, rfl, by decide, fun _ _ => ⟨rfl, rfl⟩, by decide +kernel⟩

end start

/-! ## A new root table -/

section root
variable {m : Memory} {own : ℕ → Owner} {p r v : ℕ}

/-- The page `p` becomes a root table without user entries. -/
def withRoot (own : ℕ → Owner) (p : ℕ) : ℕ → Owner := Function.update own p .root

theorem withRoot_ne {q : ℕ} (h : q ≠ p) : withRoot own p q = own q := Function.update_of_ne h _ _

theorem withRoot_self : withRoot own p p = .root := Function.update_self _ _ _

variable (S : SpaceOk m own) (hp : own p = .kernel) (hempty : ∀ i < 256, ¬ Present (readPte m (p + 8 * i)))
include S hp hempty

theorem rooted_tables : TablesOk m (withRoot own p) := by
  have hne {q : ℕ} {o : Owner} (ho : o ≠ .kernel) (h : own q = o) : withRoot own p q = o := by
    rw [withRoot_ne fun e => ho (by rw [← h, e, hp])]
    exact h
  have hback {q : ℕ} {o : Owner} (ho : o ≠ .root) (h : withRoot own p q = o) : own q = o := by
    rwa [withRoot_ne] at h
    rintro rfl
    rw [withRoot_self] at h
    exact ho h.symm
  have hforth {r' a : ℕ} {o : Owner} (h : Place own r' a o) : Place (withRoot own p) r' a o := by
    cases h with
    | mid hr hi => exact .mid (hne nofun hr) hi
    | tab hm hj => exact .tab (hne nofun hm) hj
  refine ⟨fun {r' a o} h hpr => ?_, fun {r' q} hb => ?_, fun {q r' k j} hq hj => ?_⟩
  · cases h with
    | mid hr hi =>
      by_cases hrp : r' = p
      · subst hrp
        exact absurd hpr (hempty _ hi)
      · rw [withRoot_ne hrp] at hr
        exact hne nofun (S.tables.down (.mid hr hi) hpr)
    | tab hm hj => exact hne nofun (S.tables.down (.tab (hback nofun hm) hj) hpr)
  · have hqp : q ≠ p := by
      rintro rfl
      rw [withRoot_self] at hb
      exact hb
    rw [withRoot_ne hqp] at hb ⊢
    obtain ⟨a, h, hpr, ht⟩ := S.tables.up hb
    exact ⟨a, hforth h, hpr, ht⟩
  · refine (S.tables.leaf (hback nofun hq) hj).congr fun x hx => ?_
    rcases hx with h | ⟨i, h⟩
    · exact (hne (o := .data r' (512 * k + j)) nofun h).trans h.symm
    · exact (hne (o := .shm i) nofun h).trans h.symm

/-- The new address space is empty. -/
theorem rooted_entry (hv : v < userPages) : entry m p v = 0 := by
  refine (rooted_tables S hp hempty).entry_none withRoot_self hv fun t ht => ?_
  have htp : t ≠ p := by
    rintro rfl
    rw [withRoot_self] at ht
    cases ht
  rw [withRoot_ne htp] at ht
  obtain ⟨q, i, j, hr, -⟩ := S.tables.path ht
  rw [hp] at hr
  cases hr

/-- **A new address space.** -/
theorem SpaceOk.root : SpaceOk m (withRoot own p) := by
  have hroot {r' : ℕ} (hr : withRoot own p r' = .root) : r' = p ∨ own r' = .root := by
    by_cases h : r' = p
    · exact Or.inl h
    · exact Or.inr (by rwa [withRoot_ne h] at hr)
  have hkeep {q : ℕ} (h : own q = .root) : withRoot own p q = .root := by
    rw [withRoot_ne fun e => by rw [e, hp] at h; cases h]
    exact h
  have hdata {q : ℕ} {o : Owner} (ho : o.Held) (h : own q = o) : withRoot own p q = o := by
    rw [withRoot_ne fun e => by rw [e, hp] at h; rw [← h] at ho; exact ho]
    exact h
  have hshm {q i : ℕ} (h : withRoot own p q = .shm i) : own q = .shm i := by
    rwa [withRoot_ne] at h
    rintro rfl
    rw [withRoot_self] at h
    cases h
  refine ⟨S.heap.retag (by rw [hp]; exact ⟨nofun, nofun⟩) ⟨nofun, nofun⟩, rooted_tables S hp hempty,
    ⟨fun i hi hv => ?_, S.active.first, S.active.count, S.active.clock⟩, ⟨fun {r v} hr hv hs => ?_,
    fun {r v r' v'} hr hv hs hr' hv' hs' he => ?_⟩, ⟨S.shm.va, fun i hi hv => ?_, fun q i hq => ?_,
    fun {r v} hr hv hs => ?_, fun i hi hv => ?_⟩, S.kernel⟩
  · obtain ⟨r, v, h⟩ := S.active.listed i hi hv
    exact ⟨r, v, hkeep h.root, h.user, h.pte, h.present, h.kva, hdata (o := .data r v) trivial h.owner⟩
  · rcases hroot hr with rfl | hr
    · rw [rooted_entry S hp hempty hv] at hs
      exact absurd hs not_swapped_zero
    · exact S.swap.taken hr hv hs
  · rcases hroot hr with rfl | hr
    · rw [rooted_entry S hp hempty hv] at hs
      exact absurd hs not_swapped_zero
    · rcases hroot hr' with rfl | hr'
      · rw [rooted_entry S hp hempty hv'] at hs'
        exact absurd hs' not_swapped_zero
      · exact S.swap.distinct hr hv hs hr' hv' hs' he
  · obtain ⟨q, hq, he⟩ := S.shm.page i hi hv
    exact ⟨q, hdata (o := .shm i) trivial hq, he⟩
  · exact S.shm.owned q i (hshm hq)
  · rcases hroot hr with rfl | hr
    · rw [rooted_entry S hp hempty hv] at hs
      exact absurd hs not_shared_zero
    · obtain ⟨i, hi, ho⟩ := S.shm.place hr hv hs
      exact ⟨i, hi, hdata (o := .shm i) trivial ho⟩
  · obtain ⟨rs, hnd, hrs, hcount⟩ := S.shm.count i hi hv
    refine ⟨rs, hnd, fun r' => (hrs r').trans ?_, hcount⟩
    constructor
    · rintro ⟨h1, h2⟩
      exact ⟨hkeep h1, h2⟩
    · rintro ⟨h1, h2⟩
      rcases hroot h1 with rfl | h1
      · rw [rooted_entry S hp hempty (shmVpn_lt hi)] at h2
        exact absurd h2 not_shared_zero
      · exact ⟨h1, h2⟩

end root

/-- The first half of `do_exec` and `init_pcb`: a root table with the kernel's entries. -/
def newSpace (m : Memory) : Memory := sharePgtable (allocPage 1 m).1 (pa2kva pgdirPa) (allocPage 1 m).2

/-- The page `q`, which was not in use, has become the root table of a new, empty address space. -/
structure Spawned (m : Memory) (own : ℕ → Owner) (m' : Memory) (q : ℕ) : Prop where
  space : SpaceOk m' (withRoot own q)
  frame : Frame ∅ m own m' (Function.update own q .kernel)
  untouched : Untouched ∅ m own m'
  new : ¬ (own q).Used
  bare : ∀ i < 256, ¬ Present (readPte m' (q + 8 * i))
  empty : ∀ v < userPages, entry m' q v = 0
  rest : SameRest m m'
  booked : Booked m own m' (withRoot own q)
  curr : m'.kernMemCurr ≤ m.kernMemCurr + 4096

/-- **A root table with the kernel's entries** is a new, empty address space. -/
theorem newSpace_spawned {m : Memory} {own : ℕ → Owner} (S : SpaceOk m own) (hroom : m.kernMemCurr + 4096 ≤ 2 ^ 64) :
    Spawned m own (newSpace m) (allocPage 1 m).1 := by
  obtain ⟨S1, F1, U1, hu, hq, hcurr⟩ := S.alloc hroom
  have R1 := allocPage_rest 1 m
  have B := S.heap.booked hroom (o := .root) ⟨nofun, nofun⟩
  unfold newSpace sharePgtable
  generalize (allocPage 1 m).1 = q at *
  generalize (allocPage 1 m).2 = m1 at *
  have hkernel : Function.update own q Owner.kernel q = .kernel := Function.update_self _ _ _
  have hused : (Function.update own q Owner.kernel q).Used := by
    rw [hkernel]
    exact ⟨nofun, nofun⟩
  have hmem (a : ℕ) (ha : ¬ InPage q a) :
      blit m1.mem q m1.mem (pa2kva pgdirPa) pageSize a = m1.mem a := by
    refine blit_out ?_
    unfold InPage at ha
    unfold pageSize
    omega
  obtain ⟨S2, F2⟩ : SpaceOk { m1 with mem := blit m1.mem q m1.mem (pa2kva pgdirPa) pageSize } _ ∧ _ := S1.scribble hused
    (by rw [hkernel]; exact id) hmem ⟨rfl, rfl, rfl, rfl, rfl, rfl, rfl⟩ rfl rfl rfl
  have U2 : Untouched ∅ m1 (Function.update own q .kernel)
      { m1 with mem := blit m1.mem q m1.mem (pa2kva pgdirPa) pageSize } :=
    untouched_of_page S1.heap.aligned hused.1 (fun h => absurd h (by rw [hkernel]; exact id)) hmem
  have hempty (i : ℕ) (hi : i < 256) : ¬ Present (readPte
      { m1 with mem := blit m1.mem q m1.mem (pa2kva pgdirPa) pageSize } (q + 8 * i)) := by
    have hread : readPte { m1 with mem := blit m1.mem q m1.mem (pa2kva pgdirPa) pageSize } (q + 8 * i) =
        readPte m1 (pa2kva pgdirPa + 8 * i) := by
      refine le_congr fun k hk => ?_
      refine (blit_in_of_le (by omega) (by unfold pageSize; omega)).trans (congrArg m1.mem (by omega))
    rw [hread]
    exact S1.kernel i hi
  have S3 := S2.root hkernel hempty
  have hown : withRoot (Function.update own q Owner.kernel) q = withRoot own q := Function.update_idem _ _ _
  rw [hown] at S3
  exact ⟨S3, F1.trans F2, U1.trans F1 U2, hu, hempty, fun v hv => rooted_entry S2 hkernel hempty hv,
    R1.trans ⟨rfl, rfl, rfl, rfl, rfl, rfl, rfl⟩, ⟨B.old, B.fresh⟩, hcurr⟩

theorem newSpace_spec {m : Memory} {own : ℕ → Owner} (S : SpaceOk m own) (hroom : m.kernMemCurr + 4096 ≤ 2 ^ 64) :
    ∃ own', SpaceOk (newSpace m) own' ∧ own' (allocPage 1 m).1 = .root ∧
      (∀ i < 256, ¬ Present (readPte (newSpace m) ((allocPage 1 m).1 + 8 * i))) ∧
      (∀ v < userPages, entry (newSpace m) (allocPage 1 m).1 v = 0) ∧
      (newSpace m).kernMemCurr ≤ m.kernMemCurr + 4096 := by
  have N := newSpace_spawned S hroom
  exact ⟨_, N.space, withRoot_self, N.bare, N.empty, N.curr⟩

end RiscvKernel.Mm
