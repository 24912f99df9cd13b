import RiscvKernel.Mm.Teardown

/-!
# After the end of a process

`free_all_pages` gives back the pages of one process. What is left is in order again (`LowIndices.ended`), and the
other processes see no difference: their entries and the contents of their pages are as before.
-/

namespace RiscvKernel.Mm

open Lib

/-! ## What is no page of memory -/

/-- The swap area and the end of the used memory are as before. -/
structure SameStore (m m' : Memory) : Prop where
  sd : m'.sd = m.sd
  start : m'.swapStartSec = m.swapStartSec
  curr : m'.kernMemCurr = m.kernMemCurr

namespace SameStore

variable {m m' m'' : Memory}

theorem refl (m : Memory) : SameStore m m := ⟨rfl, rfl, rfl⟩

theorem trans (h : SameStore m m') (h' : SameStore m' m'') : SameStore m m'' :=
  ⟨h'.sd.trans h.sd, h'.start.trans h.start, h'.curr.trans h.curr⟩

theorem freePage (p : ℕ) (m : Memory) : SameStore m (freePage p m) :=
  ⟨(freePage_rest p m).sd, (freePage_rest p m).swapStartSec, freePage_curr p m⟩

theorem writePte (a v : ℕ) (m : Memory) : SameStore m (writePte a v m) := ⟨rfl, rfl, rfl⟩

theorem removeFromActiveList {kva : ℕ} (h : removeFromActiveList kva m = some m') : SameStore m m' := by
  rcases removeFromActiveList_cases kva m with ⟨-, e⟩ | ⟨j, -, -, -, e⟩
  · rw [e] at h
    cases h
    exact refl m
  · rw [e] at h
    split at h
    · obtain ⟨c, -, rfl⟩ := Option.map_eq_some_iff.mp h
      exact ⟨rfl, rfl, rfl⟩
    · cases h
      exact ⟨rfl, rfl, rfl⟩

theorem shmPageDt (addr r : ℕ) (m : Memory) : SameStore m (shmPageDt addr r m) := by
  unfold Mm.shmPageDt
  split
  · exact refl m
  · split
    · exact refl m
    · split
      · exact ⟨rfl, rfl, rfl⟩
      · dsimp only
        split
        · refine SameStore.trans ?_ (writePte _ _ _)
          refine SameStore.trans ?_ (freePage _ _)
          exact ⟨rfl, rfl, rfl⟩
        · exact ⟨rfl, rfl, rfl⟩

theorem freeLeaf {r va pte : ℕ} (h : freeLeaf r va pte m = some m') : SameStore m m' := by
  unfold Mm.freeLeaf at h
  split at h
  · cases h
    exact shmPageDt va r m
  · exact (freePage _ m).trans (removeFromActiveList h)

/-- A round that does this with the child does it with the entry. -/
theorem freeEntry {child : ℕ → ℕ → Memory → Option Memory} {level p base i : ℕ}
    (hchild : ∀ va pte {m m'}, child va pte m = some m' → SameStore m m')
    (h : freeEntry child level p base i m = some m') : SameStore m m' := by
  unfold Mm.freeEntry at h
  dsimp only at h
  split_ifs at h with h1 h2 h3 h4 h5
  · cases h
    exact refl m
  · cases h
    exact refl m
  · obtain ⟨m1, hm, rfl⟩ := Option.map_eq_some_iff.mp h
    exact (hchild _ _ hm).trans ⟨rfl, rfl, rfl⟩
  · cases h
    exact ⟨rfl, rfl, rfl⟩
  · cases h
    exact ⟨rfl, rfl, rfl⟩
  · cases h
    exact ⟨rfl, rfl, rfl⟩

theorem freePageTableHelper {r level p base : ℕ} (h : freePageTableHelper r level p base m = some m') :
    SameStore m m' := by
  induction level generalizing p base m m' with
  | zero =>
    rw [Mm.freePageTableHelper] at h
    obtain ⟨m1, hm, rfl⟩ := Option.map_eq_some_iff.mp h
    refine SameStore.trans ?_ (freePage p m1)
    exact loopM_inv (P := fun _ s => SameStore m s)
      (fun j s s' _ _ hs he => hs.trans (freeEntry (fun va pte _ _ hc => freeLeaf hc) he)) (refl m) hm
  | succ level ih =>
    rw [Mm.freePageTableHelper] at h
    obtain ⟨m1, hm, rfl⟩ := Option.map_eq_some_iff.mp h
    refine SameStore.trans ?_ (freePage p m1)
    exact loopM_inv (P := fun _ s => SameStore m s)
      (fun j s s' _ _ hs he => hs.trans (freeEntry (fun va pte _ _ hc => ih hc) he)) (refl m) hm

end SameStore

/-! ## Order -/

/-- The pages of the process with the root table `r` have become free, and nothing has been written outside of them. -/
structure Cut (m : Memory) (own : ℕ → Owner) (r : ℕ) (m' : Memory) (own' : ℕ → Owner) : Prop where
  gone : ∀ p, OwnedBy m own r p → own' p = .free
  kept : ∀ p, ¬ OwnedBy m own r p → own' p = own p
  mem : ∀ b, m'.mem b ≠ m.mem b → ∃ p, OwnedBy m own r p ∧ InPage p b

/-- The process with the root table `r` has ended. -/
structure Ended (m : Memory) (own : ℕ → Owner) (r : ℕ) (m' : Memory) (own' : ℕ → Owner) : Prop where
  space : SpaceOk m' own'
  gone : ∀ p, OwnedBy m own r p → own' p = .free
  kept : ∀ p, ¬ OwnedBy m own r p → own' p = own p
  entry : ∀ {x v}, own x = .root → x ≠ r → v < userPages → entry m' x v = entry m x v
  contents : ∀ {x v off}, own x = .root → x ≠ r → v < userPages → off < 4096 → pageOf m' x v off = pageOf m x v off
  store : SameStore m m'

section ending
variable {m m' : Memory} {own own' : ℕ → Owner} {r p x v a j : ℕ} {o : Owner}

/-- The pages of a process are in use. -/
theorem OwnedBy.cases (S : SpaceOk m own) (hr : own r = .root) (h : OwnedBy m own r p) :
    own p = .root ∧ p = r ∨ (own p).Below r ∨ (∃ v, own p = .data r v) ∨
      ∃ i < shmMaxNum, LastUser m r i ∧ own p = .shm i := by
  rcases h with rfl | h | ⟨v, h⟩ | h
  · exact Or.inl ⟨hr, rfl⟩
  · exact Or.inr (Or.inl h)
  · exact Or.inr (Or.inr (Or.inl ⟨v, private_own S hr h⟩))
  · exact Or.inr (Or.inr (Or.inr h))

theorem OwnedBy.used (S : SpaceOk m own) (hr : own r = .root) (h : OwnedBy m own r p) : (own p).Used := by
  rcases h.cases S hr with ⟨h, -⟩ | h | ⟨v, h⟩ | ⟨i, -, -, h⟩
  · rw [h]
    exact ⟨nofun, nofun⟩
  · exact h.used
  · rw [h]
    exact ⟨nofun, nofun⟩
  · rw [h]
    exact ⟨nofun, nofun⟩

/-- Two address spaces have the page of a slot that counts one only if they are the same. -/
theorem LastUser.unique {i : ℕ} (S : SpaceOk m own) (hr : own r = .root) (hx : own x = .root) (hi : i < shmMaxNum)
    (hv : (m.shmTable i).valid) (h : LastUser m r i) (hs : Shared (Mm.entry m x (shmVpn i))) : x = r := by
  obtain ⟨rs, hnd, hrs, hcount⟩ := S.shm.count i hi hv
  have hlen : rs.length = 1 := by
    have := h.2
    omega
  obtain ⟨y, rfl⟩ := List.length_eq_one_iff.mp hlen
  have h1 := List.mem_singleton.mp ((hrs r).mpr ⟨hr, h.1⟩)
  have h2 := List.mem_singleton.mp ((hrs x).mpr ⟨hx, hs⟩)
  exact h2.trans h1.symm

/-- A page that says which process it belongs to belongs to that one. -/
theorem not_ownedBy (S : SpaceOk m own) (hr : own r = .root) (hx : x ≠ r)
    (hp : own p = .root ∧ p = x ∨ (own p).Below x ∨ ∃ v, own p = .data x v) : ¬ OwnedBy m own r p := by
  intro hown
  rcases hown.cases S hr with ⟨h, heq⟩ | h | ⟨v, h⟩ | ⟨i, -, -, h⟩
  · rcases hp with ⟨-, hp⟩ | hp | ⟨w, hp⟩
    · exact hx (hp.symm.trans heq)
    · rw [h] at hp
      exact hp
    · rw [h] at hp
      cases hp
  · rcases hp with ⟨hp, -⟩ | hp | ⟨w, hp⟩
    · rw [hp] at h
      exact h
    · cases ho : own p <;> rw [ho] at h hp <;> first | exact h.elim | exact hx (hp.symm.trans h)
    · rw [hp] at h
      exact h
  · rcases hp with ⟨hp, -⟩ | hp | ⟨w, hp⟩ <;> rw [h] at hp
    · cases hp
    · exact hp
    · cases hp
      exact hx rfl
  · rcases hp with ⟨hp, -⟩ | hp | ⟨w, hp⟩ <;> rw [h] at hp
    · cases hp
    · exact hp
    · cases hp

namespace Cut

variable (C : Cut m own r m' own') (S : SpaceOk m own) (hr : own r = .root)
include C

theorem old (ho : o ≠ .free) (h : own' p = o) : own p = o ∧ ¬ OwnedBy m own r p := by
  have hp : ¬ OwnedBy m own r p := fun hp => ho (h ▸ C.gone p hp)
  exact ⟨C.kept p hp ▸ h, hp⟩

theorem root (h : own' x = .root) : own x = .root ∧ x ≠ r := by
  obtain ⟨h1, h2⟩ := C.old (o := .root) nofun h
  exact ⟨h1, fun hx => h2 (Or.inl hx)⟩

theorem below (ho : o.Below x) (h : own' p = o) : own p = o ∧ x ≠ r := by
  obtain ⟨h1, h2⟩ := C.old ho.used.2 h
  refine ⟨h1, fun hx => h2 (Or.inr (Or.inl ?_))⟩
  rw [h1, ← hx]
  exact ho

include S hr

theorem root' (hx : own x = .root) (hxr : x ≠ r) : own' x = .root :=
  (C.kept x (not_ownedBy S hr hxr (Or.inl ⟨hx, rfl⟩))).trans hx

theorem keep (hxr : x ≠ r) (hp : (own p).Below x) : own' p = own p :=
  C.kept p (not_ownedBy S hr hxr (Or.inr (Or.inl hp)))

theorem page_mem (hu : own p ≠ .unused) (hp : ¬ OwnedBy m own r p) (ha : InPage p a) : m'.mem a = m.mem a := by
  by_contra hne
  obtain ⟨q, hq, hqa⟩ := C.mem a hne
  obtain rfl := inPage_unique (S.heap.aligned p hu) (S.heap.aligned q (hq.used S hr).1) ha hqa
  exact hp hq

theorem read (hu : own p ≠ .unused) (hp : ¬ OwnedBy m own r p) (hj : j < 512) :
    readPte m' (p + 8 * j) = readPte m (p + 8 * j) :=
  readPte_congr fun i hi => C.page_mem S hr hu hp ⟨by omega, by omega⟩

theorem place (h : Place own' x a o) : Place own x a o ∧ x ≠ r ∧ readPte m' a = readPte m a := by
  cases h with
  | mid hx hi =>
    obtain ⟨h1, h2⟩ := C.root hx
    exact ⟨.mid h1 hi, h2, C.read S hr (by rw [h1]; exact nofun) (not_ownedBy S hr h2 (Or.inl ⟨h1, rfl⟩)) (by omega)⟩
  | tab hp hj =>
    obtain ⟨h1, h2⟩ := C.below (x := x) (o := .mid x _) rfl hp
    exact ⟨.tab h1 hj, h2, C.read S hr (by rw [h1]; exact nofun)
      (not_ownedBy S hr h2 (Or.inr (Or.inl (by rw [h1]; rfl)))) hj⟩

theorem place' (hxr : x ≠ r) (h : Place own x a o) : Place own' x a o := by
  cases h with
  | mid hx hi => exact .mid (C.root' S hr hx hxr) hi
  | tab hp hj => exact .tab ((C.keep S hr hxr (by rw [hp]; rfl)).trans hp) hj

/-- A shared page that another process has stays. -/
theorem shared (hx : own x = .root) (hxr : x ≠ r) (hv : v < userPages) (hs : Shared (entry m x v)) :
    own' (target (entry m x v)) = own (target (entry m x v)) := by
  obtain ⟨i, rfl, ho⟩ := S.shm.place hx hv hs
  refine C.kept _ fun h => ?_
  obtain ⟨hi, hvalid, -⟩ := S.shm.owned _ i ho
  rcases h.cases S hr with ⟨h, -⟩ | h | ⟨w, h⟩ | ⟨j, -, hl, h⟩ <;> rw [ho] at h
  · cases h
  · exact h
  · cases h
  · cases h
    exact hxr (hl.unique S hr hx hi hvalid hs)

theorem tables : TablesOk m' own' := by
  refine ⟨fun {x a o} h hp => ?_, fun {x p} hb => ?_, fun {p x k j} hp hj => ?_⟩
  · obtain ⟨h, hxr, hread⟩ := C.place S hr h
    rw [hread] at hp ⊢
    have hd := S.tables.down h hp
    rw [C.keep S hr hxr (by rw [hd]; exact h.below), hd]
  · obtain ⟨ho, hxr⟩ := C.below hb rfl
    rw [← ho] at hb ⊢
    obtain ⟨a, h, hp, ht⟩ := S.tables.up hb
    have h' := C.place' S hr hxr h
    obtain ⟨-, -, hread⟩ := C.place S hr h'
    exact ⟨a, h', hread ▸ hp, (congrArg target hread).trans ht⟩
  · obtain ⟨ho, hxr⟩ := C.below (x := x) (o := .tab x k) rfl hp
    rw [C.read S hr (by rw [ho]; exact nofun) (not_ownedBy S hr hxr (Or.inr (Or.inl (by rw [ho]; rfl)))) hj]
    have hleaf := S.tables.leaf ho hj
    refine ⟨fun h1 h2 => ?_, fun h1 h2 => ?_⟩
    · have hd := hleaf.data h1 h2
      rw [C.kept _ (not_ownedBy S hr hxr (Or.inr (Or.inr ⟨_, hd⟩))), hd]
    · obtain ⟨i, hi⟩ := hleaf.shm h1 h2
      obtain ⟨q, -, -, hx, -⟩ := S.tables.path ho
      have hlt := S.tables.tab_lt ho
      have hsh := C.shared S hr hx hxr (v := 512 * k + j) (by unfold userPages; omega)
        (by rw [S.tables.entry_tab ho hj]; exact ⟨h1, h2⟩)
      rw [S.tables.entry_tab ho hj] at hsh
      exact ⟨i, hsh.trans hi⟩

theorem pte (hx : own x = .root) (hxr : x ≠ r) (hv : v < userPages) :
    getPte (v * 4096) x m' = getPte (v * 4096) x m := by
  have hvv : vpn (v * 4096) = v := vpn_mul (hv.trans (by norm_num))
  ext a
  rw [(C.tables S hr).getPte_iff (C.root' S hr hx hxr) (by rw [hvv]; exact hv),
    S.tables.getPte_iff hx (by rw [hvv]; exact hv)]
  refine exists_congr fun t => and_congr_left fun _ => ⟨fun h => (C.below (x := x) (o := .tab x _) rfl h).1, fun h => ?_⟩
  exact (C.keep S hr hxr (by rw [h]; rfl)).trans h

theorem entry (hx : own x = .root) (hxr : x ≠ r) (hv : v < userPages) : entry m' x v = entry m x v := by
  unfold Mm.entry
  rw [C.pte S hr hx hxr hv]
  cases ha : getPte (v * 4096) x m with
  | none => rfl
  | some a =>
    obtain ⟨t, ht, rfl⟩ := S.tables.slot hx hv ha
    exact C.read S hr (by rw [ht]; exact nofun) (not_ownedBy S hr hxr (Or.inr (Or.inl (by rw [ht]; rfl))))
      (Nat.mod_lt _ (by norm_num))

/-- A page of another process is not touched. -/
theorem target_mem (hx : own x = .root) (hxr : x ≠ r) (hv : v < userPages) (hp : Present (Mm.entry m x v))
    (ha : InPage (target (Mm.entry m x v)) a) : m'.mem a = m.mem a := by
  rcases S.target_held hx hv hp with ⟨ho, -⟩ | ⟨i, ho, hs⟩
  · exact C.page_mem S hr (by rw [ho]; exact nofun) (not_ownedBy S hr hxr (Or.inr (Or.inr ⟨v, ho⟩))) ha
  · refine C.page_mem S hr (by rw [ho]; exact nofun) (fun hg => ?_) ha
    have hfree := C.gone _ hg
    rw [C.shared S hr hx hxr hv hs, ho] at hfree
    cases hfree

end Cut

/-! ## The lists -/

section lists
variable (C : Cut m own r m' own') (D : TornDown m own r m') (S : SpaceOk m own) (hr : own r = .root)
include C D S hr

/-- The list of active pages has lost the pages of the process. -/
theorem TornDown.activeOk (A : ActiveTight m') : ActiveOk m' own' := by
  refine ⟨fun i hi hvalid => ?_, A.first, A.count, A.clock⟩
  obtain ⟨hold, hn⟩ := (D.valid i hi).mp hvalid
  obtain ⟨x, v, hlist⟩ := S.active.listed i hi hold
  obtain ⟨b, hb⟩ := D.active i
  have hxr : x ≠ r := by
    rintro rfl
    have hns : ¬ Shared (Mm.entry m x v) := fun hs => by
      obtain ⟨j, -, ho⟩ := S.shm.place hr hlist.user hs
      rw [hlist.kva, hlist.owner] at ho
      cases ho
    exact hn (Or.inr (Or.inr (Or.inl ⟨v, hlist.user, hlist.present, hns, hlist.kva⟩)))
  have hentry := C.entry S hr hlist.root hxr hlist.user
  rw [hb]
  exact ⟨x, v, C.root' S hr hlist.root hxr, hlist.user, (C.pte S hr hlist.root hxr hlist.user).trans hlist.pte,
    by rw [hentry]; exact hlist.present, by rw [hentry]; exact hlist.kva, (C.kept _ hn).trans hlist.owner⟩

/-- The swapped pages of the other processes keep their slots. -/
theorem TornDown.swapOk : SwapOk m' own' := by
  refine ⟨fun {x v} hx hv => ?_, fun {x v x' v'} hx hv => ?_⟩
  · obtain ⟨hx, hxr⟩ := C.root hx
    rw [C.entry S hr hx hxr hv]
    intro hs
    obtain ⟨h1, h2⟩ := S.swap.taken hx hv hs
    refine ⟨h1, (D.swap _).mpr ⟨h2, fun ⟨w, hw, hsw, hid⟩ => ?_⟩⟩
    exact hxr (S.swap.distinct hr hw hsw hx hv hs hid).1.symm
  · obtain ⟨hx, hxr⟩ := C.root hx
    rw [C.entry S hr hx hxr hv]
    intro hs hx' hv'
    obtain ⟨hx', hxr'⟩ := C.root hx'
    rw [C.entry S hr hx' hxr' hv']
    exact S.swap.distinct hx hv hs hx' hv'

/-- A slot still counts the tables that have its page. -/
theorem TornDown.shmOk : ShmOk m' own' := by
  have hsame (i : ℕ) : (m'.shmTable i).va = (m.shmTable i).va ∧ (m'.shmTable i).pa = (m.shmTable i).pa := by
    by_cases h : i < shmMaxNum ∧ Shared (Mm.entry m r (shmVpn i))
    · rw [D.shared i h.1 h.2]
      exact ⟨rfl, rfl⟩
    · rw [D.unshared i h]
      exact ⟨rfl, rfl⟩
  -- a slot that stays valid has not lost its last user
  have hstay {i : ℕ} (hvalid : (m'.shmTable i).valid) : (m.shmTable i).valid ∧ ¬ (i < shmMaxNum ∧ LastUser m r i) := by
    by_cases h : i < shmMaxNum ∧ Shared (Mm.entry m r (shmVpn i))
    · rw [D.shared i h.1 h.2] at hvalid
      obtain ⟨h1, h2⟩ := Bool.and_eq_true_iff.mp hvalid
      exact ⟨h1, fun hl => of_decide_eq_true h2 hl.2.2⟩
    · rw [D.unshared i h] at hvalid
      exact ⟨hvalid, fun hl => h ⟨hl.1, hl.2.1⟩⟩
  refine ⟨fun i hi => (hsame i).1.trans (S.shm.va i hi), fun i hi hvalid => ?_, fun p i hp => ?_, fun {x v} hx hv => ?_,
    fun i hi hvalid => ?_⟩
  · obtain ⟨h1, h2⟩ := hstay hvalid
    obtain ⟨p, hp, hpa⟩ := S.shm.page i hi h1
    refine ⟨p, (C.kept p fun hg => ?_).trans hp, (hsame i).2.trans hpa⟩
    rcases hg.cases S hr with ⟨h, -⟩ | h | ⟨w, h⟩ | ⟨j, hj, hl, h⟩ <;> rw [hp] at h
    · cases h
    · exact h
    · cases h
    · cases h
      exact h2 ⟨hj, hl⟩
  · obtain ⟨hp, hn⟩ := C.old (o := .shm i) nofun hp
    obtain ⟨hi, hvalid, hpa⟩ := S.shm.owned p i hp
    refine ⟨hi, ?_, by rw [(hsame i).2]; exact hpa⟩
    by_cases h : i < shmMaxNum ∧ Shared (Mm.entry m r (shmVpn i))
    · rw [D.shared i h.1 h.2]
      refine Bool.and_eq_true_iff.mpr ⟨hvalid, decide_eq_true fun h1 => hn ?_⟩
      exact Or.inr (Or.inr (Or.inr ⟨i, hi, ⟨h.2, h1⟩, hp⟩))
    · rw [D.unshared i h]
      exact hvalid
  · obtain ⟨hx, hxr⟩ := C.root hx
    rw [C.entry S hr hx hxr hv]
    intro hs
    obtain ⟨i, hi, ho⟩ := S.shm.place hx hv hs
    exact ⟨i, hi, (C.shared S hr hx hxr hv hs).trans ho⟩
  · obtain ⟨h1, h2⟩ := hstay hvalid
    obtain ⟨rs, hnd, hrs, hcount⟩ := S.shm.count i hi h1
    have hother (x : ℕ) : own' x = .root ∧ Shared (Mm.entry m' x (shmVpn i)) ↔
        x ≠ r ∧ own x = .root ∧ Shared (Mm.entry m x (shmVpn i)) := by
      constructor
      · rintro ⟨hx, hs⟩
        obtain ⟨hx, hxr⟩ := C.root hx
        rw [C.entry S hr hx hxr (shmVpn_lt hi)] at hs
        exact ⟨hxr, hx, hs⟩
      · rintro ⟨hxr, hx, hs⟩
        refine ⟨C.root' S hr hx hxr, ?_⟩
        rw [C.entry S hr hx hxr (shmVpn_lt hi)]
        exact hs
    refine ⟨rs.erase r, hnd.erase r, fun x => ?_, ?_⟩
    · rw [hnd.mem_erase_iff, hrs x, hother x]
    · by_cases hs : Shared (Mm.entry m r (shmVpn i))
      · have hmem : r ∈ rs := (hrs r).mpr ⟨hr, hs⟩
        have hpos := List.length_pos_of_mem hmem
        rw [D.shared i hi hs, List.length_erase_of_mem hmem]
        show (m.shmTable i).refCount - 1 = _
        omega
      · rw [D.unshared i fun h => hs h.2, List.erase_of_not_mem fun h => hs ((hrs r).mp h).2]
        exact hcount

end lists

/-- **The end of a process** with low indices. -/
theorem LowIndices.ended (S : SpaceOk m own) (hr : own r = .root) (L : LowIndices m r) :
    ∃ m' own', freeAllPages r r m = some m' ∧ TornDown m own r m' ∧ Ended m own r m' own' := by
  obtain ⟨m', heq, D⟩ := L.tornDown S hr
  obtain ⟨m1, own', heq', -, T, N⟩ := freeAllPages_torn S hr
  obtain rfl : freePage r m1 = m' := Option.some.inj (heq'.symm.trans heq)
  have hstore := SameStore.freePageTableHelper heq
  generalize freePage r m1 = m' at *
  have C : Cut m own r m' own' := ⟨fun p hp => T.gone p ((L.gone S hr).mpr hp),
    fun p hp => T.kept p fun h => hp ((L.gone S hr).mp h), D.mem⟩
  have hlow (a : ℕ) (ha : a < freememKernel) : m'.mem a = m.mem a := by
    by_contra hne
    obtain ⟨p, hp, hpa⟩ := D.mem a hne
    exact absurd ((S.heap.isPage (hp.used S hr).1).2.1.trans hpa.1) (not_le.mpr ha)
  refine ⟨m', own', heq, D, ⟨T.heap, C.tables S hr, D.activeOk C S hr N.tight, D.swapOk C S hr, D.shmOk C S hr,
    S.kernel_frame hlow⟩, C.gone, C.kept, fun hx hxr hv => C.entry S hr hx hxr hv, fun {x v off} hx hxr hv hoff => ?_, hstore⟩
  unfold pageOf
  rw [C.entry S hr hx hxr hv]
  split
  next hp => exact C.target_mem S hr hx hxr hv hp ⟨by omega, by omega⟩
  next => rw [hstore.sd, swapOffset_of_start hstore.start]

end ending

end RiscvKernel.Mm
