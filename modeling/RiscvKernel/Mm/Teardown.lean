import RiscvKernel.Mm.Active
import RiscvKernel.Mm.Root

/-!
# Taking an address space down

`free_all_pages` goes through the three levels of the tables. It skips the indices from 256 on, in order not to
touch the kernel's part of the root table, but it does so at every level: a page whose address has such an index
in the second or the third level stays behind, and so does a second-level entry with its whole table.

`Torn` says what has been done when the pages of the page numbers in `D` and the tables in `F` have gone; the
loops take it from nothing to everything with indices below 256. `freeAllPages_iff` says that the address space
is taken down exactly when it uses no other indices.
-/

namespace RiscvKernel.Mm

open Lib

/-! ## What has gone -/

/-- The page `p` is the program's own page at page number `v`. -/
def Private (m : Memory) (r v p : ℕ) : Prop :=
  v < userPages ∧ Present (entry m r v) ∧ ¬ Shared (entry m r v) ∧ target (entry m r v) = p

/-- The address space of `r` is the last that has the shared page. -/
def LastUser (m : Memory) (r i : ℕ) : Prop := Shared (entry m r (shmVpn i)) ∧ (m.shmTable i).refCount = 1

/-- The pages that are free when the page numbers in `D` and the tables in `F` are done. -/
def Gone (m : Memory) (own : ℕ → Owner) (r : ℕ) (D F : Set ℕ) (p : ℕ) : Prop :=
  p ∈ F ∨ (∃ v ∈ D, Private m r v p) ∨ ∃ i < shmMaxNum, shmVpn i ∈ D ∧ LastUser m r i ∧ own p = .shm i

/-- One process less has the shared page. -/
def detached (e : Shm) : Shm := { e with refCount := e.refCount - 1, valid := e.valid && decide (e.refCount ≠ 1) }

/-- What the allocator relies on in the list of active pages. -/
structure ActiveTight (m : Memory) : Prop where
  first : ∀ i < maxAllowablePages, ∀ j < i, (m.activePages i).valid → (m.activePages j).kva ≠ (m.activePages i).kva
  count : m.activePageCount ≤ validCount m
  clock : m.clockHead < maxAllowablePages

/-- The pages of the page numbers in `D` and the tables in `F` are free, and the entries at the addresses in `W` may have
been cleared; nothing else has been written. -/
structure Cleared (m : Memory) (own : ℕ → Owner) (r : ℕ) (D W F : Set ℕ) (m' : Memory) (own' : ℕ → Owner) : Prop where
  heap : HeapOwned m' own'
  gone : ∀ p, Gone m own r D F p → own' p = .free
  kept : ∀ p, ¬ Gone m own r D F p → own' p = own p
  mem : ∀ b, m'.mem b ≠ m.mem b → (∃ p, Gone m own r D F p ∧ InPage p b) ∨ ∃ a ∈ W, a ≤ b ∧ b < a + 8

/-- The swap area, the table of shared pages and the list of active pages are without the page numbers in `D`. -/
structure Noted (m : Memory) (r : ℕ) (D : Set ℕ) (m' : Memory) : Prop where
  swap : ∀ s, m'.swapPageStatus s = true ↔
    m.swapPageStatus s = true ∧ ¬ ∃ v ∈ D, v < userPages ∧ Swapped (entry m r v) ∧ swapIdOf (entry m r v) = s
  shared : ∀ i < shmMaxNum, shmVpn i ∈ D → Shared (entry m r (shmVpn i)) → m'.shmTable i = detached (m.shmTable i)
  unshared : ∀ i, ¬ (i < shmMaxNum ∧ shmVpn i ∈ D ∧ Shared (entry m r (shmVpn i))) → m'.shmTable i = m.shmTable i
  tight : ActiveTight m'
  active : ∀ i, ∃ b, m'.activePages i = { m.activePages i with valid := b }
  valid : ∀ i < maxAllowablePages, (m'.activePages i).valid = true ↔
    (m.activePages i).valid = true ∧ ¬ ∃ v ∈ D, Private m r v (m.activePages i).kva

/-- The page numbers in `D` and the tables in `F` have gone. -/
structure Torn (m : Memory) (own : ℕ → Owner) (r : ℕ) (D W F : Set ℕ) (m' : Memory) (own' : ℕ → Owner) : Prop where
  cleared : Cleared m own r D W F m' own'
  noted : Noted m r D m'

/-! ## The list of active pages -/

section active
variable {m m' : Memory} {own : ℕ → Owner} {kva idx : ℕ}

theorem ActiveOk.tight (A : ActiveOk m own) : ActiveTight m := ⟨A.first, A.count, A.clock⟩

/-- A search that does not stop meets no valid entry. -/
theorem nextValid_none {fuel i k : ℕ} (h : nextValid m fuel i = none) (hi : i < maxAllowablePages) (hk : k < fuel) :
    (m.activePages ((i + k) % maxAllowablePages)).valid = false := by
  have hmax : maxAllowablePages = 4 := rfl
  induction fuel generalizing i k with
  | zero => omega
  | succ fuel ih =>
    rw [nextValid] at h
    split at h
    · cases h
    · rename_i hv
      cases k with
      | zero =>
        rw [Nat.add_zero, Nat.mod_eq_of_lt hi]
        exact Bool.eq_false_iff.2 hv
      | succ k =>
        have hrest := ih h (Nat.mod_lt _ (by decide)) (k := k) (by omega)
        rwa [Nat.mod_add_mod, show i + 1 + k = i + (k + 1) by omega] at hrest

theorem nextValid_some {i c : ℕ} (hi : i < maxAllowablePages) (hv : (m.activePages i).valid = true)
    (hc : c < maxAllowablePages) : ∃ j, nextValid m (maxAllowablePages + 1) c = some j := by
  have hmax : maxAllowablePages = 4 := rfl
  cases h : nextValid m (maxAllowablePages + 1) c with
  | some j => exact ⟨j, rfl⟩
  | none =>
    have hno : (m.activePages ((c + (i + 4 - c) % 4) % 4)).valid = false := nextValid_none h hc (by omega)
    rw [show (c + (i + 4 - c) % 4) % 4 = i by omega, hv] at hno
    cases hno

/-- The list after an entry has been dropped. -/
theorem ActiveTight.drop (A : ActiveTight m) (idx : ℕ) : ActiveTight (dropActive idx m) := by
  refine ⟨fun i hi j hj hv => ?_, ?_, A.clock⟩
  · rw [dropActive_kva, dropActive_kva]
    exact A.first i hi j hj (dropActive_valid.1 hv).2
  · have hcount := A.count
    have hle : validCount m ≤ validCount (dropActive idx m) + 1 := by
      have hsub : ((Finset.range maxAllowablePages).filter fun i => (m.activePages i).valid) ⊆
          insert idx ((Finset.range maxAllowablePages).filter fun i => ((dropActive idx m).activePages i).valid) := by
        intro i hi
        rw [Finset.mem_filter] at hi
        rw [Finset.mem_insert, Finset.mem_filter, dropActive_valid]
        by_cases h : i = idx
        · exact Or.inl h
        · exact Or.inr ⟨hi.1, h, hi.2⟩
      exact (Finset.card_le_card hsub).trans (Finset.card_insert_le _ _)
    show m.activePageCount - 1 ≤ _
    omega

/-- **remove_from_active_list** returns, and the valid entries that are left are those with other pages. -/
theorem ActiveTight.remove (A : ActiveTight m) (kva : ℕ) : ∃ m', removeFromActiveList kva m = some m' ∧ ActiveTight m' ∧
    (∃ pages n c, m' = { m with activePages := pages, activePageCount := n, clockHead := c }) ∧
    (∀ i, ∃ b, m'.activePages i = { m.activePages i with valid := b }) ∧
    ∀ i < maxAllowablePages, (m'.activePages i).valid = true ↔
      (m.activePages i).valid = true ∧ (m.activePages i).kva ≠ kva := by
  rcases removeFromActiveList_cases kva m with ⟨hno, heq⟩ | ⟨idx, hidx, hk, hfirst, heq⟩
  · exact ⟨m, heq, A, ⟨_, _, _, rfl⟩, fun i => ⟨_, rfl⟩, fun i hi => (and_iff_left (hno i hi)).symm⟩
  · have D := A.drop idx
    have hsame (i : ℕ) : ∃ b, (dropActive idx m).activePages i = { m.activePages i with valid := b } := by
      by_cases h : i = idx
      · subst h
        exact ⟨false, Function.update_self _ _ _⟩
      · exact ⟨_, dropActive_of_ne h⟩
    have hvalid (i : ℕ) (hi : i < maxAllowablePages) : ((dropActive idx m).activePages i).valid = true ↔
        (m.activePages i).valid = true ∧ (m.activePages i).kva ≠ kva := by
      rw [dropActive_valid, and_comm]
      refine and_congr_right fun hv => ⟨fun hne hki => ?_, fun hne h => hne (h ▸ hk)⟩
      rcases Nat.lt_or_gt_of_ne hne with hlt | hgt
      · exact hfirst i hlt hki
      · exact A.first i hi idx hgt hv (hk.trans hki.symm)
    by_cases hc : 0 < (dropActive idx m).activePageCount ∧ (dropActive idx m).clockHead = idx
    · -- there is a valid entry, since the count is not above their number
      have hpos : 0 < validCount (dropActive idx m) := by
        have := D.count
        omega
      obtain ⟨i, hi⟩ := Finset.card_pos.1 hpos
      obtain ⟨hi, hv⟩ := Finset.mem_filter.1 hi
      obtain ⟨c, hnext⟩ := nextValid_some (Finset.mem_range.1 hi) hv D.clock
      rw [if_pos hc, hnext] at heq
      exact ⟨_, heq, ⟨D.first, D.count, (nextValid_spec hnext D.clock).1⟩, ⟨_, _, _, rfl⟩, hsame, hvalid⟩
    · rw [if_neg hc] at heq
      exact ⟨_, heq, D, ⟨_, _, _, rfl⟩, hsame, hvalid⟩

end active

/-! ## One thing less -/

section insert
variable {m m' m'' : Memory} {own own' : ℕ → Owner} {r v x q : ℕ} {D D' W W' F F' : Set ℕ}

/-- What goes with one more page number. -/
theorem gone_insert : Gone m own r (insert v D) F x ↔ Gone m own r D F x ∨ Private m r v x ∨
    ∃ i < shmMaxNum, shmVpn i = v ∧ LastUser m r i ∧ own x = .shm i := by
  unfold Gone
  rw [Set.exists_mem_insert]
  constructor
  · rintro (h | (h | h) | ⟨i, hi, hw | hw, h⟩)
    · exact Or.inl (Or.inl h)
    · exact Or.inr (Or.inl h)
    · exact Or.inl (Or.inr (Or.inl h))
    · exact Or.inr (Or.inr ⟨i, hi, hw, h⟩)
    · exact Or.inl (Or.inr (Or.inr ⟨i, hi, hw, h⟩))
  · rintro ((h | h | ⟨i, hi, hw, h⟩) | h | ⟨i, hi, hw, h⟩)
    · exact Or.inl h
    · exact Or.inr (Or.inl (Or.inr h))
    · exact Or.inr (Or.inr ⟨i, hi, Set.mem_insert_of_mem _ hw, h⟩)
    · exact Or.inr (Or.inl (Or.inl h))
    · exact Or.inr (Or.inr ⟨i, hi, hw ▸ Set.mem_insert _ _, h⟩)

theorem gone_insert_unshared (hns : ¬ Shared (entry m r v)) :
    Gone m own r (insert v D) F x ↔ Gone m own r D F x ∨ Private m r v x := by
  rw [gone_insert, or_congr_right (or_iff_left _)]
  rintro ⟨i, -, rfl, h, -⟩
  exact hns h.1

/-- A page number that is not shared concerns no slot of the table of shared pages. -/
theorem shmVpn_mem_insert {i : ℕ} (hns : ¬ Shared (entry m r v)) (hs : Shared (entry m r (shmVpn i))) :
    shmVpn i ∈ insert v D ↔ shmVpn i ∈ D := by
  rw [Set.mem_insert_iff, or_iff_right]
  rintro rfl
  exact hns hs

/-- The notes on the shared pages are the same with a page number that is not shared. -/
theorem Noted.unshared_insert (N : Noted m r D m') (hns : ¬ Shared (entry m r v)) :
    (∀ i < shmMaxNum, shmVpn i ∈ insert v D → Shared (entry m r (shmVpn i)) →
      m'.shmTable i = detached (m.shmTable i)) ∧
    ∀ i, ¬ (i < shmMaxNum ∧ shmVpn i ∈ insert v D ∧ Shared (entry m r (shmVpn i))) →
      m'.shmTable i = m.shmTable i :=
  ⟨fun i hi hD hs => N.shared i hi ((shmVpn_mem_insert hns hs).1 hD) hs,
    fun i hi => N.unshared i fun ⟨h1, h2, h3⟩ => hi ⟨h1, (shmVpn_mem_insert hns h3).2 h2, h3⟩⟩

/-- One more page is freed. -/
theorem Cleared.free (C : Cleared m own r D W F m' own') (hq : (own' q).Used)
    (hgone : ∀ x, Gone m own r D' F' x ↔ x = q ∨ Gone m own r D F x) :
    Cleared m own r D' W F' (freePage q m') (Function.update own' q .free) := by
  refine ⟨C.heap.free hq, fun x hx => ?_, fun x hx => ?_, fun b hb => ?_⟩
  · by_cases hxq : x = q
    · subst hxq
      exact Function.update_self _ _ _
    · rw [Function.update_of_ne hxq]
      exact C.gone x (((hgone x).1 hx).resolve_left hxq)
  · rw [hgone, not_or] at hx
    rw [Function.update_of_ne hx.1]
    exact C.kept x hx.2
  · by_cases hin : InPage q b
    · exact Or.inl ⟨q, (hgone q).2 (Or.inl rfl), hin⟩
    · rw [freePage_mem hin] at hb
      rcases C.mem b hb with ⟨p, hp, h⟩ | h
      · exact Or.inl ⟨p, (hgone p).2 (Or.inr hp), h⟩
      · exact Or.inr h

/-- Nothing more is freed. -/
theorem Cleared.congr (C : Cleared m own r D W F m' own')
    (hgone : ∀ x, Gone m own r D' F' x ↔ Gone m own r D F x) : Cleared m own r D' W F' m' own' := by
  refine ⟨C.heap, fun x hx => C.gone x ((hgone x).1 hx), fun x hx => C.kept x fun h => hx ((hgone x).2 h), fun b hb => ?_⟩
  rcases C.mem b hb with ⟨p, hp, h⟩ | h
  · exact Or.inl ⟨p, (hgone p).2 hp, h⟩
  · exact Or.inr h

/-- Only the memory and the allocator matter. -/
theorem Cleared.of_mem (C : Cleared m own r D W F m' own') (hmem : m''.mem = m'.mem)
    (hlist : m''.freePageList = m'.freePageList) (hcount : m''.freePageListCount = m'.freePageListCount)
    (hcurr : m''.kernMemCurr = m'.kernMemCurr) : Cleared m own r D W F m'' own' :=
  ⟨C.heap.congr (fun _ _ _ _ => by rw [hmem]) hlist hcount hcurr, C.gone, C.kept, by rw [hmem]; exact C.mem⟩

theorem Torn.mono (T : Torn m own r D W F m' own') (hW : W ⊆ W') : Torn m own r D W' F m' own' := by
  refine ⟨⟨T.cleared.heap, T.cleared.gone, T.cleared.kept, fun b hb => ?_⟩, T.noted⟩
  rcases T.cleared.mem b hb with h | ⟨a, ha, hin⟩
  · exact Or.inl h
  · exact Or.inr ⟨a, hW ha, hin⟩

theorem ActiveTight.rest (A : ActiveTight m') (R : SameRest m' m'') : ActiveTight m'' := by
  obtain ⟨-, f1, f2, f3, -⟩ := R
  refine ⟨?_, ?_, ?_⟩
  · rw [f1]
    exact A.first
  · unfold validCount
    rw [f1, f2]
    exact A.count
  · rw [f3]
    exact A.clock

/-- The memory and the allocator do not matter. -/
theorem Noted.rest (N : Noted m r D m') (R : SameRest m' m'') : Noted m r D m'' := by
  have A := N.tight.rest R
  obtain ⟨-, f1, -, -, f4, -, f6⟩ := R
  refine ⟨?_, ?_, ?_, A, ?_, ?_⟩
  · rw [f4]
    exact N.swap
  · rw [f6]
    exact N.shared
  · rw [f6]
    exact N.unshared
  · rw [f1]
    exact N.active
  · rw [f1]
    exact N.valid

/-- The slot of a swapped page goes. -/
theorem Torn.swapped (T : Torn m own r D W F m' own') (hvu : v < userPages) (h : Swapped (entry m r v)) :
    Torn m own r (insert v D) W F
      { m' with swapPageStatus := Function.update m'.swapPageStatus (swapIdOf (entry m r v)) false } own' := by
  have N := T.noted
  have hns : ¬ Shared (entry m r v) := fun hs => h.1 hs.1
  have hnp (x : ℕ) : ¬ Private m r v x := fun hx => h.1 hx.2.1
  have hgone (x : ℕ) : Gone m own r (insert v D) F x ↔ Gone m own r D F x := by
    rw [gone_insert_unshared hns, or_iff_left (hnp x)]
  obtain ⟨hsh, hun⟩ := N.unshared_insert hns
  refine ⟨(T.cleared.congr hgone).of_mem rfl rfl rfl rfl, fun s => ?_, hsh, hun,
    ⟨N.tight.first, N.tight.count, N.tight.clock⟩, N.active, fun i hi => ?_⟩
  · show Function.update m'.swapPageStatus (swapIdOf (entry m r v)) false s = true ↔ _
    by_cases hs : s = swapIdOf (entry m r v)
    · subst hs
      rw [Function.update_self]
      exact iff_of_false nofun fun h' => h'.2 ⟨v, Set.mem_insert _ _, hvu, h, rfl⟩
    · rw [Function.update_of_ne hs, N.swap s, Set.exists_mem_insert, or_iff_right fun h' => hs h'.2.2.symm]
  · rw [N.valid i hi, Set.exists_mem_insert, or_iff_right (hnp _)]

end insert

section steps
variable {m m' : Memory} {own own' : ℕ → Owner} {r v p q t j a : ℕ} {D W F : Set ℕ} (S : SpaceOk m own)
  (hr : own r = .root)
include S hr

theorem private_own (h : Private m r v p) : own p = .data r v := by
  obtain ⟨hv, hp, hs, rfl⟩ := h
  rcases S.target_held hr hv hp with ⟨ho, -⟩ | ⟨i, -, hsh⟩
  · exact ho
  · exact absurd hsh hs

/-- The tables that have gone are those in `F`. -/
theorem gone_table (hp : (own p).IsTable) : Gone m own r D F p ↔ p ∈ F := by
  constructor
  · rintro (h | ⟨v, -, h⟩ | ⟨i, -, -, -, h⟩)
    · exact h
    · rw [private_own S hr h] at hp
      exact hp.elim
    · rw [h] at hp
      exact hp.elim
  · exact Or.inl

/-- A table that has not gone is still the table. -/
theorem Torn.own_table (T : Torn m own r D W F m' own') (hp : (own p).IsTable) (hpF : p ∉ F) : own' p = own p :=
  T.cleared.kept p fun h => hpF ((gone_table S hr hp).1 h)

/-- An entry is cleared. -/
theorem Torn.wipe (T : Torn m own r D W F m' own') (hp : (own p).IsTable) (hpF : p ∉ F) (hj : j < 512)
    (hW : p + 8 * j ∈ W) (e : ℕ) : Torn m own r D W F (writePte (p + 8 * j) e m') own' := by
  have C := T.cleared
  refine ⟨⟨C.heap.writeTable (by rw [T.own_table S hr hp hpF]; exact hp) hj, C.gone, C.kept, fun b hb => ?_⟩,
    T.noted.rest (writePte_rest _ _ _)⟩
  by_cases hin : p + 8 * j ≤ b ∧ b < p + 8 * j + 8
  · exact Or.inr ⟨_, hW, hin⟩
  · refine C.mem b fun he => hb ?_
    exact (putLe_out (by omega)).trans he

/-- A table goes. -/
theorem Torn.table (T : Torn m own r D W F m' own') (ht : (own t).IsTable) (htF : t ∉ F) :
    Torn m own r D W (insert t F) (freePage t m') (Function.update own' t .free) := by
  refine ⟨T.cleared.free (by rw [T.own_table S hr ht htF]; exact ht.used) fun x => ?_, T.noted.rest (freePage_rest t m')⟩
  unfold Gone
  rw [Set.mem_insert_iff, or_assoc]

variable (hF : ∀ p ∈ F, (own p).IsTable)
include hF

theorem gone_used (h : Gone m own r D F p) : (own p).Used := by
  rcases h with h | ⟨v, -, h⟩ | ⟨i, -, -, -, h⟩
  · exact (hF p h).used
  · rw [private_own S hr h]
    exact ⟨nofun, nofun⟩
  · rw [h]
    exact ⟨nofun, nofun⟩

/-- The page of a page number that is not done is there. -/
theorem not_gone_data (hp : own p = .data r v) (hv : v ∉ D) : ¬ Gone m own r D F p := by
  rintro (h | ⟨w, hw, h⟩ | ⟨i, -, -, -, h⟩)
  · have := hF p h
    rw [hp] at this
    exact this.elim
  · have := private_own S hr h
    rw [hp] at this
    cases this
    exact hv hw
  · rw [hp] at h
    cases h

theorem not_gone_shm {i : ℕ} (hp : own p = .shm i) (hi : shmVpn i ∉ D) : ¬ Gone m own r D F p := by
  rintro (h | ⟨w, hw, h⟩ | ⟨l, -, hl, -, h⟩)
  · have := hF p h
    rw [hp] at this
    exact this.elim
  · have := private_own S hr h
    rw [hp] at this
    cases this
  · rw [hp] at h
    cases h
    exact hi hl

/-- An entry of a table that is there has not changed when it has not been cleared. -/
theorem Torn.read (T : Torn m own r D W F m' own') (hp : (own p).IsTable) (hpF : p ∉ F) (hj : j < 512)
    (hW : ∀ a ∈ W, a % 8 = 0 ∧ a ≠ p + 8 * j) : readPte m' (p + 8 * j) = readPte m (p + 8 * j) := by
  refine readPte_congr fun i hi => ?_
  by_contra hne
  have hal := S.heap.aligned p hp.used.1
  rcases T.cleared.mem _ hne with ⟨q, hq, hin⟩ | ⟨a, ha, h1, h2⟩
  · have hpq : p = q := inPage_unique hal (S.heap.aligned q (gone_used S hr hF hq).1) ⟨by omega, by omega⟩ hin
    subst hpq
    exact hpF ((gone_table S hr hp).1 hq)
  · obtain ⟨h8, hne⟩ := hW a ha
    omega

/-- The program's own page at a page number goes. -/
theorem Torn.private (T : Torn m own r D W F m' own') (hv : v ∉ D) (h : Private m r v p) :
    ∃ m'', removeFromActiveList p (freePage p m') = some m'' ∧
      Torn m own r (insert v D) W F m'' (Function.update own' p .free) := by
  have hp := private_own S hr h
  obtain ⟨hvu, hpr, hns, htp⟩ := h
  have N := T.noted.rest (freePage_rest p m')
  have hpriv (x : ℕ) : Private m r v x ↔ x = p :=
    ⟨fun h => h.2.2.2.symm.trans htp, fun h => ⟨hvu, hpr, hns, htp.trans h.symm⟩⟩
  have C : Cleared m own r (insert v D) W F (freePage p m') (Function.update own' p .free) := by
    refine T.cleared.free ?_ fun x => ?_
    · rw [T.cleared.kept p (not_gone_data S hr hF hp hv), hp]
      exact ⟨nofun, nofun⟩
    · rw [gone_insert_unshared hns, or_comm, hpriv]
  obtain ⟨m'', hrem, A, ⟨pages, n, c, rfl⟩, hsame, hvalid⟩ := N.tight.remove p
  obtain ⟨hsh, hun⟩ := N.unshared_insert hns
  refine ⟨_, hrem, C.of_mem rfl rfl rfl rfl, fun s => ?_, hsh, hun, A, fun i => ?_, fun i hi => ?_⟩
  · rw [Set.exists_mem_insert, or_iff_right fun h => h.2.1.1 hpr]
    exact N.swap s
  · obtain ⟨b, hb⟩ := hsame i
    obtain ⟨b', hb'⟩ := N.active i
    rw [hb'] at hb
    exact ⟨b, hb⟩
  · obtain ⟨b', hb'⟩ := N.active i
    have hkva : ((freePage p m').activePages i).kva = (m.activePages i).kva := by rw [hb']
    rw [hvalid i hi, N.valid i hi, and_assoc, Set.exists_mem_insert, not_or, and_comm (a := ¬ Private _ _ _ _), hkva,
      hpriv]

/-- The address space leaves a shared page. -/
theorem Torn.sharedPage (T : Torn m own r D W F m' own') (hvu : v < userPages) (hv : v ∉ D)
    (hs : Shared (entry m r v)) (hpte : getPte (v * 4096) r m' = some a) (ha : readPte m' a = entry m r v) :
    ∃ m1 own1, shmPageDt (v * 4096) r m' = writePte a 0 m1 ∧ Torn m own r (insert v D) W F m1 own1 := by
  have N := T.noted
  obtain ⟨i, rfl, ho⟩ := S.shm.place hr hvu hs
  obtain ⟨hi, hvalid, hpa⟩ := S.shm.owned _ i ho
  generalize target (entry m r (shmVpn i)) = q at ho hpa
  have hslot : m'.shmTable i = m.shmTable i := N.unshared i fun h => hv h.2.1
  have hva (j : ℕ) (hj : j < shmMaxNum) : (m'.shmTable j).va = shmVpn j * 4096 := by
    have hm : (m'.shmTable j).va = (m.shmTable j).va := by
      by_cases h : shmVpn j ∈ D ∧ Shared (entry m r (shmVpn j))
      · rw [N.shared j hj h.1 h.2]
        rfl
      · rw [N.unshared j fun h' => h h'.2]
    rw [hm, S.shm.va j hj]
    unfold shmVpn shmVaBase
    omega
  have hinj {j : ℕ} (h : shmVpn j = shmVpn i) : j = i := by
    unfold shmVpn at h
    omega
  have hscan : scan (fun j => if (m'.shmTable j).valid ∧ (m'.shmTable j).va = shmVpn i * 4096 then some j else none) 0
      shmMaxNum = some i := by
    refine scan_eq_some.2 ⟨i, Nat.zero_le _, by omega, if_pos ⟨by rw [hslot]; exact hvalid, hva i hi⟩, fun j _ hj => ?_⟩
    refine if_neg fun h => ?_
    have h2 := h.2
    rw [hva j (by omega)] at h2
    have := hinj (Nat.eq_of_mul_eq_mul_right (by norm_num) h2)
    omega
  have hpriv (x : ℕ) : ¬ Private m r (shmVpn i) x := fun h => h.2.2.1 hs
  have hgone (x : ℕ) : Gone m own r (insert (shmVpn i) D) F x ↔
      Gone m own r D F x ∨ LastUser m r i ∧ own x = .shm i := by
    rw [gone_insert, or_congr_right]
    constructor
    · rintro (h | ⟨j, hj, h, hl, hx⟩)
      · exact absurd h (hpriv x)
      · rw [hinj h] at hl hx
        exact ⟨hl, hx⟩
    · exact fun h => Or.inr ⟨i, hi, rfl, h⟩
  -- the table of shared pages with the slot detached
  obtain ⟨tbl, htbl⟩ : ∃ tbl, tbl = Function.update m'.shmTable i (detached (m.shmTable i)) := ⟨_, rfl⟩
  have N' : Noted m r (insert (shmVpn i) D) { m' with shmTable := tbl } := by
    refine ⟨fun s => ?_, fun j hj hD hsj => ?_, fun j hn => ?_, ⟨N.tight.first, N.tight.count, N.tight.clock⟩, N.active,
      fun l hl => ?_⟩
    · rw [Set.exists_mem_insert, or_iff_right fun h => h.2.1.1 hs.1]
      exact N.swap s
    · show tbl j = _
      rw [htbl]
      by_cases hji : j = i
      · subst hji
        exact Function.update_self _ _ _
      · rw [Function.update_of_ne hji]
        exact N.shared j hj (hD.resolve_left fun h => hji (hinj h)) hsj
    · have hji : j ≠ i := by
        rintro rfl
        exact hn ⟨hi, Set.mem_insert _ _, hs⟩
      show tbl j = _
      rw [htbl, Function.update_of_ne hji]
      exact N.unshared j fun ⟨h1, h2, h3⟩ => hn ⟨h1, Set.mem_insert_of_mem _ h2, h3⟩
    · rw [Set.exists_mem_insert, or_iff_right (hpriv _)]
      exact N.valid l hl
  have C : Cleared m own r D W F { m' with shmTable := tbl } own' := T.cleared.of_mem rfl rfl rfl rfl
  unfold shmPageDt
  rw [hpte]
  dsimp only
  rw [ha, if_neg hs.1, hscan]
  dsimp only
  rw [hslot, hpa]
  by_cases hone : (m.shmTable i).refCount = 1
  · have hzero : (m.shmTable i).refCount - 1 = 0 := by omega
    have hdet : detached (m.shmTable i) = { m.shmTable i with refCount := (m.shmTable i).refCount - 1, valid := false } := by
      unfold detached
      rw [decide_eq_false (not_not.2 hone), Bool.and_false]
    rw [if_pos hzero, ← hdet, ← htbl]
    refine ⟨_, _, rfl, C.free (q := q) ?_ fun x => ?_, N'.rest (freePage_rest _ _)⟩
    · rw [C.kept q (not_gone_shm S hr hF ho hv), ho]
      exact ⟨nofun, nofun⟩
    · rw [hgone, or_comm]
      refine or_congr_left ⟨fun h => (S.shm.owned x i h.2).2.2.symm.trans hpa, ?_⟩
      rintro rfl
      exact ⟨⟨hs, hone⟩, ho⟩
  · have hzero : (m.shmTable i).refCount - 1 ≠ 0 := by omega
    have hdet : detached (m.shmTable i) = { m.shmTable i with refCount := (m.shmTable i).refCount - 1 } := by
      unfold detached
      rw [decide_eq_true hone, Bool.and_true]
    rw [if_neg hzero, ← hdet, ← htbl]
    exact ⟨_, own', rfl, C.congr fun x => by rw [hgone, or_iff_left fun h => hone h.1.2], N'⟩

end steps

/-! ## The walk through the tables -/

/-- The page number has a page, in the memory or in the swap area. -/
def Filled (m : Memory) (r v : ℕ) : Prop := Present (entry m r v) ∨ Swapped (entry m r v)

theorem not_filled {m : Memory} {r v : ℕ} (h : entry m r v = 0) : ¬ Filled m r v := by
  unfold Filled
  rw [h]
  exact fun hf => hf.elim not_present_zero not_swapped_zero

/-- The page numbers below `n` that have a page and only low indices. -/
def reached (m : Memory) (r n : ℕ) : Set ℕ :=
  {v | v < n ∧ v < userPages ∧ v % 512 < 256 ∧ v / 512 % 512 < 256 ∧ Filled m r v}

/-- Entry `j` of the table `p` concerns page numbers below `n` only. -/
def Before (own : ℕ → Owner) (r n p j : ℕ) : Prop :=
  (∃ k, own p = .tab r k ∧ 512 * k + j < n) ∨ (∃ i, own p = .mid r i ∧ 512 * (512 * i + j) + 512 ≤ n) ∨
    p = r ∧ j < 256 ∧ 2 ^ 18 * j + 2 ^ 18 ≤ n

/-- The entries for page numbers below `n`. -/
def wiped (own : ℕ → Owner) (r n : ℕ) : Set ℕ := {a | ∃ p j, a = p + 8 * j ∧ j < 512 ∧ Before own r n p j}

/-- The first `K` last tables that are reached and the first `I` middle tables. -/
def shed (own : ℕ → Owner) (r K I : ℕ) : Set ℕ :=
  {p | (∃ k < K, k % 512 < 256 ∧ own p = .tab r k) ∨ ∃ i < I, own p = .mid r i}

/-- The walk has come to page number `n` and freed `K` last tables and `I` middle tables. -/
def Upto (m : Memory) (own : ℕ → Owner) (r n K I : ℕ) (m' : Memory) : Prop :=
  ∃ own', Torn m own r (reached m r n) (wiped own r n) (shed own r K I) m' own'

section sets
variable {m : Memory} {own : ℕ → Owner} {r n n' K I p j k i v : ℕ}

theorem Before.mono (h : Before own r n p j) (hn : n ≤ n') : Before own r n' p j := by
  rcases h with ⟨k, hk, h⟩ | ⟨i, hi, h⟩ | ⟨hp, hj, h⟩
  · exact Or.inl ⟨k, hk, by omega⟩
  · exact Or.inr (Or.inl ⟨i, hi, by omega⟩)
  · exact Or.inr (Or.inr ⟨hp, hj, by omega⟩)

theorem wiped_mono (hn : n ≤ n') : wiped own r n ⊆ wiped own r n' :=
  fun _ ⟨p, j, ha, hj, h⟩ => ⟨p, j, ha, hj, h.mono hn⟩

/-- Page numbers without a page make no difference. -/
theorem reached_eq (hn : n ≤ n') (h : ∀ v, n ≤ v → v < n' → v < userPages → v % 512 < 256 → v / 512 % 512 < 256 →
    ¬ Filled m r v) : reached m r n' = reached m r n := by
  ext v
  constructor
  · rintro ⟨h1, h2, h3, h4, h5⟩
    refine ⟨?_, h2, h3, h4, h5⟩
    by_contra h6
    exact h v (by omega) h1 h2 h3 h4 h5
  · rintro ⟨h1, h2⟩
    exact ⟨by omega, h2⟩

theorem reached_succ (hv : v < userPages) (h0 : v % 512 < 256) (h1 : v / 512 % 512 < 256) (hm : Filled m r v) :
    reached m r (v + 1) = insert v (reached m r v) := by
  ext w
  rw [Set.mem_insert_iff]
  constructor
  · rintro ⟨h2, h3⟩
    by_cases hw : w = v
    · exact Or.inl hw
    · exact Or.inr ⟨by omega, h3⟩
  · rintro (rfl | ⟨h2, h3⟩)
    · exact ⟨by omega, hv, h0, h1, hm⟩
    · exact ⟨by omega, h3⟩

theorem not_reached : v ∉ reached m r v := fun h => lt_irrefl v h.1

theorem shed_isTable (h : p ∈ shed own r K I) : (own p).IsTable := by
  rcases h with ⟨k, -, -, h⟩ | ⟨i, -, h⟩ <;> rw [h] <;> trivial

theorem not_shed_root (hr : own r = .root) : r ∉ shed own r K I := by
  rintro (⟨k, -, -, h⟩ | ⟨i, -, h⟩) <;> rw [hr] at h <;> cases h

theorem not_shed_mid (hp : own p = .mid r i) (hi : I ≤ i) : p ∉ shed own r K I := by
  rintro (⟨k, -, -, h⟩ | ⟨i', hi', h⟩) <;> rw [hp] at h <;> cases h
  omega

theorem not_shed_tab (hp : own p = .tab r k) (hk : K ≤ k ∨ 256 ≤ k % 512) : p ∉ shed own r K I := by
  rintro (⟨k', hk', hlow, h⟩ | ⟨i', hi', h⟩) <;> rw [hp] at h <;> cases h
  omega

theorem before_tab (hr : own r = .root) (hp : own p = .tab r k) : Before own r n p j ↔ 512 * k + j < n := by
  constructor
  · rintro (⟨k', hk, h⟩ | ⟨i, hi, h⟩ | ⟨rfl, -⟩)
    · rw [hp] at hk
      cases hk
      exact h
    · rw [hp] at hi
      cases hi
    · rw [hp] at hr
      cases hr
  · exact fun h => Or.inl ⟨k, hp, h⟩

theorem before_mid (hr : own r = .root) (hp : own p = .mid r i) :
    Before own r n p j ↔ 512 * (512 * i + j) + 512 ≤ n := by
  constructor
  · rintro (⟨k', hk, h⟩ | ⟨i', hi, h⟩ | ⟨rfl, -⟩)
    · rw [hp] at hk
      cases hk
    · rw [hp] at hi
      cases hi
      exact h
    · rw [hp] at hr
      cases hr
  · exact fun h => Or.inr (Or.inl ⟨i, hp, h⟩)

theorem before_root (hr : own r = .root) : Before own r n r j ↔ j < 256 ∧ 2 ^ 18 * j + 2 ^ 18 ≤ n := by
  constructor
  · rintro (⟨k, hk, -⟩ | ⟨i, hi, -⟩ | ⟨-, h⟩)
    · rw [hr] at hk
      cases hk
    · rw [hr] at hi
      cases hi
    · exact h
  · exact fun h => Or.inr (Or.inr ⟨rfl, h⟩)

theorem Before.used (h : Before own r n p j) (hr : own r = .root) : own p ≠ .unused := by
  rcases h with ⟨k, h, -⟩ | ⟨i, h, -⟩ | ⟨rfl, -⟩
  · rw [h]
    exact nofun
  · rw [h]
    exact nofun
  · rw [hr]
    exact nofun

/-- The other entries are not among them. -/
theorem not_wiped (A : Aligned own) (hr : own r = .root) (hp : own p ≠ .unused) (hj : j < 512)
    (h : ¬ Before own r n p j) : ∀ a ∈ wiped own r n, a % 8 = 0 ∧ a ≠ p + 8 * j := by
  rintro a ⟨q, l, rfl, hl, hb⟩
  have hq := A q (hb.used hr)
  refine ⟨by omega, fun he => h ?_⟩
  obtain ⟨rfl, rfl⟩ := A.entry_inj (hb.used hr) hp hl hj he
  exact hb

end sets

section walk
variable {m m' : Memory} {own : ℕ → Owner} {r n n' K K' I I' p t j k i base : ℕ}

theorem Upto.advance (U : Upto m own r n K I m') (hn : n ≤ n')
    (hD : ∀ v, n ≤ v → v < n' → v < userPages → v % 512 < 256 → v / 512 % 512 < 256 → ¬ Filled m r v)
    (hF : shed own r K' I' = shed own r K I) : Upto m own r n' K' I' m' := by
  obtain ⟨own', T⟩ := U
  refine ⟨own', ?_⟩
  rw [reached_eq hn hD, hF]
  exact T.mono (wiped_mono hn)

variable (S : SpaceOk m own) (hr : own r = .root)
include S hr

theorem Upto.read (U : Upto m own r n K I m') (hp : (own p).IsTable) (hpF : p ∉ shed own r K I) (hj : j < 512)
    (hb : ¬ Before own r n p j) : readPte m' (p + 8 * j) = readPte m (p + 8 * j) := by
  obtain ⟨own', T⟩ := U
  exact T.read S hr (fun _ => shed_isTable) hp hpF hj (not_wiped S.heap.aligned hr hp.used.1 hj hb)

theorem Upto.wipe (U : Upto m own r n K I m') (hp : (own p).IsTable) (hpF : p ∉ shed own r K I) (hj : j < 512)
    (hb : Before own r n p j) : Upto m own r n K I (writePte (p + 8 * j) 0 m') := by
  obtain ⟨own', T⟩ := U
  exact ⟨own', T.wipe S hr hp hpF hj ⟨p, j, rfl, hj, hb⟩ 0⟩

/-- The way to a last table is there while the walk is in it. -/
theorem Upto.getPte (U : Upto m own r n K (k / 512) m') (ht : own t = .tab r k) (hj : j < 512)
    (hn : n ≤ 512 * k + j) : getPte ((512 * k + j) * 4096) r m' = some (t + 8 * j) := by
  have hk := S.tables.tab_lt ht
  obtain ⟨p, i, l, -, hp, hi, hl, rfl, ⟨hpr2, ht2⟩, hpr1, ht1⟩ := S.tables.path ht
  have hvpn : vpn ((512 * (512 * i + l) + j) * 4096) = 512 * (512 * i + l) + j := vpn_mul (by omega)
  have h2 : getVpn2 ((512 * (512 * i + l) + j) * 4096) = i := by rw [getVpn2_eq, hvpn]; omega
  have h1 : getVpn1 ((512 * (512 * i + l) + j) * 4096) = l := by rw [getVpn1_eq, hvpn]; omega
  have h0 : getVpn0 ((512 * (512 * i + l) + j) * 4096) = j := by rw [getVpn0_eq, hvpn]; omega
  have hread2 : readPte m' (r + 8 * i) = readPte m (r + 8 * i) := by
    refine U.read S hr (by rw [hr]; trivial) (not_shed_root hr) (by omega) ?_
    rw [before_root hr]
    omega
  have hread1 : readPte m' (p + 8 * l) = readPte m (p + 8 * l) := by
    refine U.read S hr (by rw [hp]; trivial) (not_shed_mid hp (by omega)) hl ?_
    rw [before_mid hr hp]
    omega
  unfold target at ht1 ht2
  unfold Mm.getPte
  dsimp only
  rw [h2, h1, h0, hread2, if_neg hpr2, ht2, hread1, if_neg hpr1, ht1]

theorem Upto.entry_read (U : Upto m own r (512 * k + j) k (k / 512) m') (ht : own t = .tab r k) (hj : j < 512) :
    readPte m' (t + 8 * j) = entry m r (512 * k + j) := by
  rw [S.tables.entry_tab ht hj]
  refine U.read S hr (by rw [ht]; trivial) (not_shed_tab ht (Or.inl le_rfl)) hj ?_
  rw [before_tab hr ht]
  exact lt_irrefl _

omit S hr in
theorem Upto.succ {v : ℕ} {own2 : ℕ → Owner} (hv : v < userPages) (h0 : v % 512 < 256) (h1 : v / 512 % 512 < 256)
    (hm : Filled m r v) (T : Torn m own r (insert v (reached m r v)) (wiped own r v) (shed own r K I) m' own2) :
    Upto m own r (v + 1) K I m' := by
  refine ⟨own2, ?_⟩
  rw [reached_succ hv h0 h1 hm]
  exact T.mono (wiped_mono (Nat.le_succ _))

/-- The page of a present entry goes; `shm_page_dt` clears the entry, which the caller does once more. -/
theorem Upto.present (U : Upto m own r (512 * k + j) k (k / 512) m') (ht : own t = .tab r k) (hk : k % 512 < 256)
    (hj : j < 256) (hpr : Present (entry m r (512 * k + j))) : ∃ m1 m2,
    freeLeaf r ((512 * k + j) * 4096) (entry m r (512 * k + j)) m' = some m1 ∧
      writePte (t + 8 * j) 0 m1 = writePte (t + 8 * j) 0 m2 ∧ Upto m own r (512 * k + j + 1) k (k / 512) m2 := by
  have hk17 := S.tables.tab_lt ht
  have hv : 512 * k + j < userPages := by
    unfold userPages
    omega
  have hread := U.entry_read S hr ht (by omega)
  have hpte := U.getPte S hr ht (by omega) le_rfl
  obtain ⟨own', T⟩ := U
  have hF : ∀ p ∈ shed own r k (k / 512), (own p).IsTable := fun _ => shed_isTable
  unfold freeLeaf
  by_cases hs : getAttribute (entry m r (512 * k + j)) pageShm ≠ 0
  · obtain ⟨m2, own2, heq, T2⟩ := T.sharedPage S hr hF hv not_reached ⟨hpr, hs⟩ hpte hread
    rw [if_pos hs, heq]
    exact ⟨_, m2, rfl, writePte_writePte _ _ _ _, Upto.succ hv (by omega) (by omega) (Or.inl hpr) T2⟩
  · obtain ⟨m2, heq, T2⟩ := T.private S hr hF not_reached ⟨hv, hpr, fun h => hs h.2, rfl⟩
    rw [if_neg hs]
    exact ⟨m2, m2, heq, rfl, Upto.succ hv (by omega) (by omega) (Or.inl hpr) T2⟩

/-- One round in a last table. -/
theorem Upto.leaf (U : Upto m own r (512 * k + j) k (k / 512) m') (ht : own t = .tab r k) (hk : k % 512 < 256)
    (hj : j < 512) (hb : base = k * 2 ^ 21) : ∃ m'', freeEntry (freeLeaf r) 0 t base j m' = some m'' ∧
      Upto m own r (512 * k + (j + 1)) k (k / 512) m'' := by
  have hk17 := S.tables.tab_lt ht
  have hv : 512 * k + j < userPages := by
    unfold userPages
    omega
  have hva : base + j * 2 ^ (12 + 0 * 9) = (512 * k + j) * 4096 := by omega
  have hlow : ¬ (512 * k + j) * 4096 > userMaxVa := by
    unfold userMaxVa
    omega
  unfold freeEntry
  dsimp only
  rw [U.entry_read S hr ht hj, hva, if_neg hlow]
  by_cases hj2 : j ≥ kernelPteIndexStart
  · rw [if_pos hj2]
    unfold kernelPteIndexStart at hj2
    exact ⟨m', rfl, U.advance (by omega) (fun v h1 h2 => by omega) rfl⟩
  · rw [if_neg hj2]
    unfold kernelPteIndexStart at hj2
    have hwipe {m2 : Memory} (U2 : Upto m own r (512 * k + j + 1) k (k / 512) m2) :
        Upto m own r (512 * k + (j + 1)) k (k / 512) (writePte (t + 8 * j) 0 m2) := by
      refine U2.wipe S hr (by rw [ht]; trivial) (not_shed_tab ht (Or.inl le_rfl)) hj ?_
      rw [before_tab hr ht]
      exact Nat.lt_succ_self _
    by_cases hpr : getAttribute (entry m r (512 * k + j)) pagePresent ≠ 0
    · obtain ⟨m1, m2, heq, hw, U2⟩ := U.present S hr ht hk (by omega) hpr
      rw [if_pos hpr, heq]
      exact ⟨_, rfl, hw ▸ hwipe U2⟩
    · rw [if_neg hpr]
      by_cases hsw : 0 = 0 ∧ getAttribute (entry m r (512 * k + j)) pageSwap ≠ 0
      · have hsw' : Swapped (entry m r (512 * k + j)) := ⟨hpr, hsw.2⟩
        have hid : entry m r (512 * k + j) / 2 ^ 10 < swapMaxPages := (S.swap.taken hr hv hsw').1
        have hmod : entry m r (512 * k + j) / 2 ^ 10 % 2 ^ 32 = entry m r (512 * k + j) / 2 ^ 10 :=
          Nat.mod_eq_of_lt (hid.trans (by decide))
        rw [if_pos hsw, hmod, if_pos hid]
        obtain ⟨own', T⟩ := U
        exact ⟨_, rfl, hwipe (Upto.succ hv (by omega) (by omega) (Or.inr hsw') (T.swapped hv hsw'))⟩
      · rw [if_neg hsw]
        refine ⟨_, rfl, hwipe (U.advance (by omega) (fun v h1 h2 _ _ _ => ?_) rfl)⟩
        obtain rfl : v = 512 * k + j := by omega
        exact fun hm => hm.elim hpr fun h => hsw ⟨rfl, h.2⟩

/-- A last table goes. -/
theorem Upto.tab (U : Upto m own r (512 * k) k (k / 512) m') (ht : own t = .tab r k) (hk : k % 512 < 256)
    (hb : base = k * 2 ^ 21) : ∃ m'', freePageTableHelper r 0 t base m' = some m'' ∧
      Upto m own r (512 * (k + 1)) (k + 1) (k / 512) m'' := by
  obtain ⟨m1, hloop, own1, T1⟩ := loopM_run (f := freeEntry (freeLeaf r) 0 t base) (n := numPteEntry) (i := 0)
    (P := fun j s => Upto m own r (512 * k + j) k (k / 512) s)
    (fun j s _ hj U => U.leaf S hr ht hk (by unfold numPteEntry at hj; omega) hb) U
  have hshed : shed own r (k + 1) (k / 512) = insert t (shed own r k (k / 512)) := by
    ext p
    rw [Set.mem_insert_iff]
    constructor
    · rintro (⟨k', hk', hlow, hp⟩ | h)
      · by_cases hkk : k' = k
        · subst hkk
          exact Or.inl (S.tables.tab_unique hp ht)
        · exact Or.inr (Or.inl ⟨k', by omega, hlow, hp⟩)
      · exact Or.inr (Or.inr h)
    · rintro (rfl | ⟨k', hk', h⟩ | h)
      · exact Or.inl ⟨k, by omega, hk, ht⟩
      · exact Or.inl ⟨k', by omega, h⟩
      · exact Or.inr h
  refine ⟨freePage t m1, ?_, Function.update own1 t .free, ?_⟩
  · rw [freePageTableHelper, hloop]
    rfl
  · rw [hshed]
    exact T1.table S hr (by rw [ht]; trivial) (not_shed_tab ht (Or.inl le_rfl))

/-- One round in a middle table. -/
theorem Upto.midEntry (U : Upto m own r (512 * k) k i m') (hp : own p = .mid r i) (hi : i < 256) (hj : j < 512)
    (hk : k = 512 * i + j) (hb : base = i * 2 ^ 30) : ∃ m'',
    freeEntry (fun va pte => freePageTableHelper r 0 (pa2kva (getPa pte)) va) 1 p base j m' = some m'' ∧
      Upto m own r (512 * (k + 1)) (k + 1) i m'' := by
  have hread : readPte m' (p + 8 * j) = readPte m (p + 8 * j) := by
    refine U.read S hr (by rw [hp]; trivial) (not_shed_mid hp le_rfl) hj ?_
    rw [before_mid hr hp]
    omega
  have hva : base + j * 2 ^ (12 + 1 * 9) = k * 2 ^ 21 := by omega
  have hlow : ¬ k * 2 ^ 21 > userMaxVa := by
    unfold userMaxVa
    omega
  have hshed (h : k % 512 < 256 → ∀ t, own t ≠ .tab r k) : shed own r (k + 1) i = shed own r k i := by
    ext q
    constructor
    · rintro (⟨k', hk', hl, hq⟩ | hq)
      · by_cases hkk : k' = k
        · subst hkk
          exact absurd hq (h hl q)
        · exact Or.inl ⟨k', by omega, hl, hq⟩
      · exact Or.inr hq
    · rintro (⟨k', hk', hq⟩ | hq)
      · exact Or.inl ⟨k', by omega, hq⟩
      · exact Or.inr hq
  unfold freeEntry
  dsimp only
  rw [hread, hva, if_neg hlow]
  by_cases hj2 : j ≥ kernelPteIndexStart
  · rw [if_pos hj2]
    unfold kernelPteIndexStart at hj2
    exact ⟨m', rfl, U.advance (by omega) (fun v h1 h2 => by omega) (hshed fun h => by omega)⟩
  · rw [if_neg hj2]
    unfold kernelPteIndexStart at hj2
    have hwipe {m2 : Memory} (U2 : Upto m own r (512 * (k + 1)) (k + 1) i m2) :
        Upto m own r (512 * (k + 1)) (k + 1) i (writePte (p + 8 * j) 0 m2) := by
      refine U2.wipe S hr (by rw [hp]; trivial) (not_shed_mid hp le_rfl) hj ?_
      rw [before_mid hr hp]
      omega
    have hplace : Place own r (p + 8 * j) (.tab r k) := hk ▸ .tab hp hj
    by_cases hpr : getAttribute (readPte m (p + 8 * j)) pagePresent ≠ 0
    · have ht : own (pa2kva (getPa (readPte m (p + 8 * j)))) = .tab r k := S.tables.down hplace hpr
      obtain rfl : i = k / 512 := by omega
      obtain ⟨m1, heq, U1⟩ := U.tab S hr ht (by omega) rfl
      rw [if_pos hpr, heq]
      exact ⟨_, rfl, hwipe U1⟩
    · have hno := S.tables.no_table hplace hpr
      have hsw : ¬ (1 = 0 ∧ getAttribute (readPte m (p + 8 * j)) pageSwap ≠ 0) := nofun
      rw [if_neg hpr, if_neg hsw]
      refine ⟨_, rfl, hwipe (U.advance (by omega) (fun v h1 h2 hv _ _ => ?_) (hshed fun _ => hno))⟩
      exact not_filled (S.tables.entry_none hr hv (by rwa [show v / 512 = k by omega]))

/-- A middle table goes. -/
theorem Upto.mid (U : Upto m own r (2 ^ 18 * i) (512 * i) i m') (hp : own p = .mid r i) (hi : i < 256)
    (hb : base = i * 2 ^ 30) : ∃ m'', freePageTableHelper r 1 p base m' = some m'' ∧
      Upto m own r (2 ^ 18 * (i + 1)) (512 * (i + 1)) (i + 1) m'' := by
  obtain ⟨m1, hloop, own1, T1⟩ := loopM_run
    (f := freeEntry (fun va pte => freePageTableHelper r 0 (pa2kva (getPa pte)) va) 1 p base) (n := numPteEntry) (i := 0)
    (P := fun j s => Upto m own r (512 * (512 * i + j)) (512 * i + j) i s)
    (fun j s _ hj U => U.midEntry S hr hp hi (by unfold numPteEntry at hj; omega) rfl hb)
    (show Upto m own r (512 * (512 * i)) (512 * i) i m' by rwa [← mul_assoc])
  rw [show 512 * (512 * i + (0 + numPteEntry)) = 2 ^ 18 * (i + 1) by unfold numPteEntry; omega,
    show 512 * i + (0 + numPteEntry) = 512 * (i + 1) by unfold numPteEntry; omega] at T1
  have hshed : shed own r (512 * (i + 1)) (i + 1) = insert p (shed own r (512 * (i + 1)) i) := by
    ext q
    rw [Set.mem_insert_iff]
    constructor
    · rintro (h | ⟨i', hi', hq⟩)
      · exact Or.inr (Or.inl h)
      · by_cases hii : i' = i
        · subst hii
          exact Or.inl (S.tables.mid_unique hq hp)
        · exact Or.inr (Or.inr ⟨i', by omega, hq⟩)
    · rintro (rfl | h | ⟨i', hi', hq⟩)
      · exact Or.inr ⟨i, by omega, hp⟩
      · exact Or.inl h
      · exact Or.inr ⟨i', by omega, hq⟩
  refine ⟨freePage p m1, ?_, Function.update own1 p .free, ?_⟩
  · rw [freePageTableHelper, hloop]
    rfl
  · rw [hshed]
    exact T1.table S hr (by rw [hp]; trivial) (not_shed_mid hp le_rfl)

/-- One round in the root table. -/
theorem Upto.rootEntry (U : Upto m own r (2 ^ 18 * i) (512 * i) i m') (hi : i < 512) : ∃ m'',
    freeEntry (fun va pte => freePageTableHelper r 1 (pa2kva (getPa pte)) va) 2 r 0 i m' = some m'' ∧
      Upto m own r (2 ^ 18 * (i + 1)) (512 * (i + 1)) (i + 1) m'' := by
  have hva : 0 + i * 2 ^ (12 + 2 * 9) = i * 2 ^ 30 := by omega
  -- without a middle table there is no last table
  have hshed (h : ∀ p, own p ≠ .mid r i) : shed own r (512 * (i + 1)) (i + 1) = shed own r (512 * i) i := by
    ext q
    constructor
    · rintro (⟨k, hk, hl, hq⟩ | ⟨i', hi', hq⟩)
      · refine Or.inl ⟨k, ?_, hl, hq⟩
        by_contra hge
        obtain ⟨p, l, j, -, hp, -, hj, hkl, -⟩ := S.tables.path hq
        obtain rfl : l = i := by omega
        exact h p hp
      · by_cases hii : i' = i
        · subst hii
          exact absurd hq (h q)
        · exact Or.inr ⟨i', by omega, hq⟩
    · rintro (⟨k, hk, hq⟩ | ⟨i', hi', hq⟩)
      · exact Or.inl ⟨k, by omega, hq⟩
      · exact Or.inr ⟨i', by omega, hq⟩
  unfold freeEntry
  dsimp only
  by_cases hi2 : i < 256
  · have hread : readPte m' (r + 8 * i) = readPte m (r + 8 * i) := by
      refine U.read S hr (by rw [hr]; trivial) (not_shed_root hr) hi ?_
      rw [before_root hr]
      omega
    have hlow : ¬ i * 2 ^ 30 > userMaxVa := by
      unfold userMaxVa
      omega
    have hidx : ¬ i ≥ kernelPteIndexStart := not_le.2 hi2
    rw [hva, hread, if_neg hlow, if_neg hidx]
    have hwipe {m2 : Memory} (U2 : Upto m own r (2 ^ 18 * (i + 1)) (512 * (i + 1)) (i + 1) m2) :
        Upto m own r (2 ^ 18 * (i + 1)) (512 * (i + 1)) (i + 1) (writePte (r + 8 * i) 0 m2) := by
      refine U2.wipe S hr (by rw [hr]; trivial) (not_shed_root hr) hi ?_
      rw [before_root hr]
      omega
    have hplace : Place own r (r + 8 * i) (.mid r i) := .mid hr hi2
    by_cases hpr : getAttribute (readPte m (r + 8 * i)) pagePresent ≠ 0
    · have hp : own (pa2kva (getPa (readPte m (r + 8 * i)))) = .mid r i := S.tables.down hplace hpr
      obtain ⟨m1, heq, U1⟩ := U.mid S hr hp hi2 rfl
      rw [if_pos hpr, heq]
      exact ⟨_, rfl, hwipe U1⟩
    · have hno := S.tables.no_table hplace hpr
      have hsw : ¬ (2 = 0 ∧ getAttribute (readPte m (r + 8 * i)) pageSwap ≠ 0) := nofun
      rw [if_neg hpr, if_neg hsw]
      refine ⟨_, rfl, hwipe (U.advance (by omega) (fun v h1 h2 hv _ _ => ?_) (hshed hno))⟩
      refine not_filled (S.tables.entry_none hr hv fun t ht => ?_)
      obtain ⟨p, l, j, -, hp, -, hj, hkl, -⟩ := S.tables.path ht
      obtain rfl : l = i := by omega
      exact hno p hp
  · -- the kernel's part of the root table
    have hhigh : i * 2 ^ 30 > userMaxVa := by
      unfold userMaxVa
      omega
    rw [hva, if_pos hhigh]
    refine ⟨m', rfl, U.advance (by omega) (fun v h1 h2 hv => ?_) (hshed fun p hp => ?_)⟩
    · unfold userPages at hv
      omega
    · obtain ⟨a, hpl, -, -⟩ := S.tables.up (p := p) (r := r) (by rw [hp]; rfl)
      rw [hp] at hpl
      cases hpl with
      | mid _ hi3 => exact hi2 hi3

/-- The walk through all tables. -/
theorem freeAllPages_torn : ∃ m1 own1, freeAllPages r r m = some (freePage r m1) ∧ Upto m own r (2 ^ 27) (2 ^ 18) 512 m1 ∧
    Torn m own r (reached m r (2 ^ 27)) (wiped own r (2 ^ 27)) (insert r (shed own r (2 ^ 18) 512)) (freePage r m1) own1 := by
  have hstart : Upto m own r (2 ^ 18 * 0) (512 * 0) 0 m := by
    have hnone (p : ℕ) : ¬ Gone m own r (reached m r 0) (shed own r 0 0) p := by
      rintro ((⟨k, hk, -⟩ | ⟨i, hi, -⟩) | ⟨v, hv, -⟩ | ⟨i, -, hi, -⟩)
      · exact absurd hk (Nat.not_lt_zero k)
      · exact absurd hi (Nat.not_lt_zero i)
      · exact absurd hv.1 (Nat.not_lt_zero v)
      · exact absurd hi.1 (Nat.not_lt_zero _)
    refine ⟨own, ⟨S.heap, fun p hp => absurd hp (hnone p), fun _ _ => rfl, fun b hb => absurd rfl hb⟩, ?_⟩
    refine ⟨fun s => (and_iff_left ?_).symm, fun i _ hi => absurd hi.1 (Nat.not_lt_zero _), fun _ _ => rfl,
      S.active.tight, fun i => ⟨_, rfl⟩, fun i _ => (and_iff_left ?_).symm⟩
    · rintro ⟨v, hv, -⟩
      exact absurd hv.1 (Nat.not_lt_zero v)
    · rintro ⟨v, hv, -⟩
      exact absurd hv.1 (Nat.not_lt_zero v)
  obtain ⟨m1, hloop, U⟩ := loopM_run
    (f := freeEntry (fun va pte => freePageTableHelper r 1 (pa2kva (getPa pte)) va) 2 r 0) (n := numPteEntry) (i := 0)
    (P := fun i s => Upto m own r (2 ^ 18 * i) (512 * i) i s)
    (fun i s _ hi U => U.rootEntry S hr (by unfold numPteEntry at hi; omega)) hstart
  have U1 : Upto m own r (2 ^ 27) (2 ^ 18) 512 m1 := U
  obtain ⟨own1, T1⟩ := id U1
  refine ⟨m1, Function.update own1 r .free, ?_, U1, T1.table S hr (by rw [hr]; trivial) (not_shed_root hr)⟩
  rw [freeAllPages, freePageTableHelper, hloop]
  rfl

end walk

/-! ## The whole address space -/

/-- The page belongs to the process with the root table `r` alone. -/
def OwnedBy (m : Memory) (own : ℕ → Owner) (r p : ℕ) : Prop :=
  p = r ∨ (own p).Below r ∨ (∃ v, Private m r v p) ∨ ∃ i < shmMaxNum, LastUser m r i ∧ own p = .shm i

/-- The address space of `r` has been taken down. -/
structure TornDown (m : Memory) (own : ℕ → Owner) (r : ℕ) (m' : Memory) : Prop where
  freed : ∃ ps ps', Chain (readPte m) m.freePageList ps ∧ Chain (readPte m') m'.freePageList ps' ∧ ps'.Nodup ∧
    (∀ p, p ∈ ps' ↔ p ∈ ps ∨ OwnedBy m own r p) ∧ (∀ p ∈ ps, ¬ OwnedBy m own r p) ∧
    m'.freePageListCount = ps'.length
  swap : ∀ s, m'.swapPageStatus s = true ↔
    m.swapPageStatus s = true ∧ ¬ ∃ v < userPages, Swapped (entry m r v) ∧ swapIdOf (entry m r v) = s
  shared : ∀ i < shmMaxNum, Shared (entry m r (shmVpn i)) → m'.shmTable i = detached (m.shmTable i)
  unshared : ∀ i, ¬ (i < shmMaxNum ∧ Shared (entry m r (shmVpn i))) → m'.shmTable i = m.shmTable i
  active : ∀ i, ∃ b, m'.activePages i = { m.activePages i with valid := b }
  valid : ∀ i < maxAllowablePages, (m'.activePages i).valid = true ↔
    (m.activePages i).valid = true ∧ ¬ OwnedBy m own r (m.activePages i).kva
  mem : ∀ b, m'.mem b ≠ m.mem b → ∃ p, OwnedBy m own r p ∧ InPage p b
  kernel : ∀ i, 256 ≤ i → i < 512 → readPte m' (r + 8 * i) = readPte m (r + 8 * i)

/-- No table hangs at an index from 256 on in the second level, and no page in the third. -/
def LowIndices (m : Memory) (r : ℕ) : Prop :=
  ∀ v < userPages, (getPte (v * 4096) r m ≠ none → v / 512 % 512 < 256) ∧ (Filled m r v → v % 512 < 256)

section whole
variable {m m' : Memory} {own : ℕ → Owner} {r p v : ℕ}

theorem LowIndices.reached (L : LowIndices m r) (hv : v < userPages) (hf : Filled m r v) : v ∈ reached m r (2 ^ 27) := by
  refine ⟨hv.trans (by norm_num), hv, (L v hv).2 hf, (L v hv).1 fun hnone => ?_, hf⟩
  refine not_filled ?_ hf
  unfold entry
  rw [hnone]

variable (S : SpaceOk m own) (hr : own r = .root)
include S hr

/-- With low indices everything goes. -/
theorem LowIndices.gone (L : LowIndices m r) :
    Gone m own r (Mm.reached m r (2 ^ 27)) (insert r (shed own r (2 ^ 18) 512)) p ↔ OwnedBy m own r p := by
  constructor
  · rintro ((rfl | ⟨k, -, -, hp⟩ | ⟨i, -, hp⟩) | ⟨v, -, h⟩ | ⟨i, hi, -, h⟩)
    · exact Or.inl rfl
    · exact Or.inr (Or.inl (by rw [hp]; rfl))
    · exact Or.inr (Or.inl (by rw [hp]; rfl))
    · exact Or.inr (Or.inr (Or.inl ⟨v, h⟩))
    · exact Or.inr (Or.inr (Or.inr ⟨i, hi, h⟩))
  · rintro (rfl | h | ⟨v, h⟩ | ⟨i, hi, h⟩)
    · exact Or.inl (Set.mem_insert _ _)
    · refine Or.inl (Set.mem_insert_of_mem _ ?_)
      obtain ⟨a, hpl, -⟩ := S.tables.up h
      generalize ho : own p = o at hpl
      cases hpl with
      | mid _ hi => exact Or.inr ⟨_, by omega, ho⟩
      | tab hq hj =>
        rename_i q i j
        have hk := S.tables.tab_lt ho
        have hvpn : vpn (512 * (512 * i + j) * 4096) = 512 * (512 * i + j) := vpn_mul (by omega)
        have hsome : getPte (512 * (512 * i + j) * 4096) r m = some _ := S.tables.getPte_tab ho (by omega)
        refine Or.inl ⟨512 * i + j, by omega, ?_, ho⟩
        have hlow := (L (512 * (512 * i + j)) (by unfold userPages; omega)).1 (by rw [hsome]; exact nofun)
        omega
    · exact Or.inr (Or.inl ⟨v, L.reached h.1 (Or.inl h.2.1), h⟩)
    · exact Or.inr (Or.inr ⟨i, hi, L.reached (shmVpn_lt hi) (Or.inl h.1.1.1), h⟩)

/-- With low indices the address space is taken down. -/
theorem LowIndices.tornDown (L : LowIndices m r) : ∃ m', freeAllPages r r m = some m' ∧ TornDown m own r m' := by
  obtain ⟨m1, own2, heq, U, T⟩ := freeAllPages_torn S hr
  obtain ⟨C, N⟩ := T
  have hgone (p : ℕ) := L.gone S hr (p := p)
  have hown (p : ℕ) (hp : OwnedBy m own r p) : (own p).Used := by
    refine gone_used S hr (F := insert r (shed own r (2 ^ 18) 512)) ?_ ((hgone p).2 hp)
    rintro q (rfl | hq)
    · rw [hr]
      trivial
    · exact shed_isTable hq
  refine ⟨_, heq, ?_, fun s => ?_, fun i hi hs => ?_, fun i hi => ?_, N.active, fun i hi => ?_, fun b hb => ?_, fun i h1 h2 => ?_⟩
  · obtain ⟨ps, hps, -, hfree, -⟩ := S.heap.list
    obtain ⟨ps', hps', hnd, hfree', hcount⟩ := C.heap.list
    have hnot (p : ℕ) (hp : p ∈ ps) : ¬ OwnedBy m own r p := fun h => (hown p h).2 ((hfree p).2 hp)
    refine ⟨ps, ps', hps, hps', hnd, fun p => ?_, hnot, hcount⟩
    rw [← hfree' p, ← hfree p]
    by_cases hp : OwnedBy m own r p
    · exact iff_of_true (C.gone p ((hgone p).2 hp)) (Or.inr hp)
    · rw [C.kept p fun h => hp ((hgone p).1 h), or_iff_left hp]
  · rw [N.swap s]
    refine and_congr_right fun _ => not_congr ⟨fun ⟨v, _, h⟩ => ⟨v, h⟩, fun ⟨v, hv, h⟩ => ⟨v, ?_, hv, h⟩⟩
    exact L.reached hv (Or.inr h.1)
  · exact N.shared i hi (L.reached (shmVpn_lt hi) (Or.inl hs.1)) hs
  · exact N.unshared i fun ⟨h1, _, h2⟩ => hi ⟨h1, h2⟩
  · rw [N.valid i hi]
    refine and_congr_right fun hv => not_congr ?_
    obtain ⟨r', v, hlist⟩ := S.active.listed i hi hv
    constructor
    · rintro ⟨w, -, h⟩
      exact Or.inr (Or.inr (Or.inl ⟨w, h⟩))
    · rintro (h | h | ⟨w, h⟩ | ⟨j, -, -, h⟩)
      · have ho := hlist.owner
        rw [h, hr] at ho
        cases ho
      · rw [hlist.owner] at h
        exact h.elim
      · exact ⟨w, L.reached h.1 (Or.inl h.2.1), h⟩
      · rw [hlist.owner] at h
        cases h
  · rcases C.mem b hb with ⟨p, hp, hin⟩ | ⟨a, ⟨p, j, rfl, hj, hbef⟩, h1, h2⟩
    · exact ⟨p, (hgone p).1 hp, hin⟩
    · refine ⟨p, ?_, by omega, by omega⟩
      rcases hbef with ⟨k, hp, -⟩ | ⟨i, hp, -⟩ | ⟨rfl, -⟩
      · exact Or.inr (Or.inl (by rw [hp]; rfl))
      · exact Or.inr (Or.inl (by rw [hp]; rfl))
      · exact Or.inl rfl
  · have hread : readPte m1 (r + 8 * i) = readPte m (r + 8 * i) := by
      refine U.read S hr (by rw [hr]; trivial) (not_shed_root hr) h2 ?_
      rw [before_root hr]
      omega
    rw [← hread]
    refine readPte_congr fun k hk => ?_
    unfold freePage
    split
    · rfl
    · exact putLe_out (by omega)

/-- If the address space has been taken down, it had low indices only. -/
theorem TornDown.lowIndices (heq : freeAllPages r r m = some m') (D : TornDown m own r m') : LowIndices m r := by
  obtain ⟨m1, own2, heq', -, T⟩ := freeAllPages_torn S hr
  obtain rfl : freePage r m1 = m' := Option.some.inj (heq'.symm.trans heq)
  obtain ⟨C, N⟩ := T
  have hgone {p : ℕ} (hp : OwnedBy m own r p) (hu : (own p).Used) :
      Gone m own r (Mm.reached m r (2 ^ 27)) (insert r (shed own r (2 ^ 18) 512)) p := by
    obtain ⟨ps, ps', -, hchain, -, hmem, -⟩ := D.freed
    obtain ⟨qs, hqs, -, hfree, -⟩ := C.heap.list
    by_contra hn
    have hin : own2 p = .free := by
      rw [hfree p, ← hchain.unique hqs]
      exact (hmem p).2 (Or.inr hp)
    rw [C.kept p hn] at hin
    exact hu.2 hin
  refine fun v hv => ⟨fun hsome => ?_, ?_⟩
  · obtain ⟨a, ha⟩ := Option.ne_none_iff_exists'.1 hsome
    have hvpn : vpn (v * 4096) = v := vpn_mul (hv.trans (by norm_num))
    obtain ⟨t, ht, -⟩ := (S.tables.getPte_iff hr (by rwa [hvpn])).1 ha
    rw [hvpn] at ht
    have hg := (gone_table S hr (by rw [ht]; trivial)).1 (hgone (Or.inr (Or.inl (by rw [ht]; rfl))) (by rw [ht]; exact ⟨nofun, nofun⟩))
    rcases hg with rfl | ⟨k, -, hk, h⟩ | ⟨i, -, h⟩
    · rw [hr] at ht
      cases ht
    · rw [ht] at h
      cases h
      exact hk
    · rw [ht] at h
      cases h
  · rintro (hpr | hsw)
    · by_cases hs : Shared (entry m r v)
      · obtain ⟨i, rfl, ho⟩ := S.shm.place hr hv hs
        have hi := (S.shm.owned _ i ho).1
        unfold shmMaxNum at hi
        unfold shmVpn shmVaBase
        omega
      · have hpriv : Private m r v (target (entry m r v)) := ⟨hv, hpr, hs, rfl⟩
        have ho := private_own S hr hpriv
        rcases hgone (Or.inr (Or.inr (Or.inl ⟨v, hpriv⟩))) (by rw [ho]; exact ⟨nofun, nofun⟩) with
          (h | ⟨k, -, -, h⟩ | ⟨i, -, h⟩) | ⟨w, hw, h⟩ | ⟨i, -, -, -, h⟩
        · rw [h, hr] at ho
          cases ho
        · rw [ho] at h
          cases h
        · rw [ho] at h
          cases h
        · have h' := private_own S hr h
          rw [ho] at h'
          cases h'
          exact hw.2.2.1
        · rw [ho] at h
          cases h
    · obtain ⟨-, htaken⟩ := S.swap.taken hr hv hsw
      have hfreed : ¬ (freePage r m1).swapPageStatus (swapIdOf (entry m r v)) = true :=
        fun h => ((D.swap _).1 h).2 ⟨v, hv, hsw, rfl⟩
      rw [N.swap, not_and_not_right] at hfreed
      obtain ⟨w, hw, hwu, hwsw, hid⟩ := hfreed htaken
      obtain ⟨-, rfl⟩ := S.swap.distinct hr hwu hwsw hr hv hsw hid
      exact hw.2.2.1

/-- **free_all_pages** takes the address space down, and nothing else, exactly when it uses no index from 256 on in
the second and the third level. -/
theorem freeAllPages_iff : (∃ m', freeAllPages r r m = some m' ∧ TornDown m own r m') ↔ LowIndices m r :=
  ⟨fun ⟨_, heq, D⟩ => D.lowIndices S hr heq, fun L => L.tornDown S hr⟩

end whole

/-! ## A program with one page -/

/-- The first root table after start-up. -/
def firstRoot : ℕ := (allocPage 1 startMemory).1

/-- A new address space with a page at `va`. -/
def onePage (va : ℕ) : Memory := (allocPageHelper va firstRoot (newSpace startMemory)).2

theorem onePage_spec {va : ℕ} (hva : vpn va < userPages) : ∃ own, SpaceOk (onePage va) own ∧ own firstRoot = .root ∧
    Present (entry (onePage va) firstRoot (vpn va)) ∧ ∀ v < userPages,
      (getPte (v * 4096) firstRoot (onePage va) ≠ none → v / 512 = vpn va / 512) ∧
      (Filled (onePage va) firstRoot v → v = vpn va) := by
  obtain ⟨own, S, hr, hempty, hzero, hcurr⟩ := newSpace_spec startMemory_start.spaceOk (by decide)
  change own firstRoot = .root at hr
  have hroom : (newSpace startMemory).kernMemCurr + 3 * 4096 ≤ 2 ^ 64 := by
    refine (Nat.add_le_add_right hcurr _).trans ?_
    decide
  obtain ⟨own', P, M⟩ := allocPageHelper_made S hr hva
    (by rw [show entry (newSpace startMemory) firstRoot (vpn va) = 0 from hzero _ hva]; exact not_present_zero) hroom
  have hr' := (P.frame.root firstRoot).2 hr
  refine ⟨own', P.space, hr', P.present, fun v hv => ⟨fun hsome => ?_, fun hf => ?_⟩⟩
  · obtain ⟨a, ha⟩ := Option.ne_none_iff_exists'.1 hsome
    have hvpn : vpn (v * 4096) = v := vpn_mul (hv.trans (by norm_num))
    obtain ⟨t, ht, -⟩ := (P.space.tables.getPte_iff hr' (by rwa [hvpn])).1 ha
    rw [hvpn] at ht
    rcases (M.has (.tab firstRoot (v / 512)) trivial).1 ⟨t, ht⟩ with ⟨t', ht'⟩ | h | h
    · obtain ⟨p, i, j, -, -, hi, -, -, ⟨hpr, -⟩, -⟩ := S.tables.path ht'
      exact absurd hpr (hempty i hi)
    · cases h
    · injection h
  · by_contra hne
    have hlike := P.frame.entry hr hv (fun h => hne (by injection Set.mem_singleton_iff.1 h))
    have h0 : entry (newSpace startMemory) firstRoot v = 0 := hzero v hv
    rw [h0] at hlike
    exact not_filled (hlike.eq_of_not_present not_present_zero) hf

/-- The program at 0x10000 is taken down. -/
theorem freeAllPages_low : ∃ own m', freeAllPages firstRoot firstRoot (onePage 0x10000) = some m' ∧
    TornDown (onePage 0x10000) own firstRoot m' := by
  obtain ⟨own, S, hr, -, hrest⟩ := onePage_spec (show vpn 0x10000 < userPages by decide)
  have hvpn : vpn 0x10000 = 16 := by decide
  rw [hvpn] at hrest
  refine ⟨own, (freeAllPages_iff S hr).2 fun v hv => ⟨fun h => ?_, fun h => ?_⟩⟩
  · have := (hrest v hv).1 h
    omega
  · have := (hrest v hv).2 h
    omega

/-- The page at 0x100000 has index 256 in its table and stays behind. -/
theorem freeAllPages_high : ¬ ∀ m own r, SpaceOk m own → own r = .root →
    ∃ m', freeAllPages r r m = some m' ∧ TornDown m own r m' := by
  intro hall
  obtain ⟨own, S, hr, hpr, -⟩ := onePage_spec (show vpn 0x100000 < userPages by decide)
  have hvpn : vpn 0x100000 = 256 := by decide
  rw [hvpn] at hpr
  obtain ⟨m', heq, D⟩ := hall _ own _ S hr
  have hlow := (D.lowIndices S hr heq 256 (by norm_num)).2 (Or.inl hpr)
  exact absurd hlow (by norm_num)

end RiscvKernel.Mm
