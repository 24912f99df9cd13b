import RiscvKernel.Mm.Alloc

/-!
# What the pages are used for

An `Owner` says what a page of the allocator is used for: it is free, a table of an address space, the
page of a program, a shared page, a page in a pipe. Each page has one owner, which is what keeps address
spaces apart: two entries that lead to one page would give it two owners.

`HeapOwned` connects the owners with the allocator: the free pages are those in its list, and every page
in use has been handed out.
-/

namespace RiscvKernel.Mm

open Lib

/-- The use of a page: the root table of an address space, the tables below it, with the root and the part
of the address space that they map, a page of a program with its place, and so on. -/
inductive Owner
  | unused
  | free
  | kernel
  | root
  | mid (r i : ℕ)
  | tab (r k : ℕ)
  | data (r v : ℕ)
  | shm (i : ℕ)
  | pipe (i : ℕ)
deriving DecidableEq

def Owner.Used (o : Owner) : Prop := o ≠ .unused ∧ o ≠ .free

instance (o : Owner) : Decidable o.Used := inferInstanceAs (Decidable (_ ∧ _))

/-- A page that the allocator can hand out. -/
def IsPage (p : ℕ) : Prop := p % 4096 = 0 ∧ freememKernel ≤ p ∧ p + 4096 ≤ 2 ^ 64

/-- The address lies in the page. -/
def InPage (p a : ℕ) : Prop := p ≤ a ∧ a < p + 4096

instance (p a : ℕ) : Decidable (InPage p a) := inferInstanceAs (Decidable (_ ∧ _))

/-- An address lies in one page. -/
theorem inPage_unique {p q a : ℕ} (hp : p % 4096 = 0) (hq : q % 4096 = 0) (h1 : InPage p a)
    (h2 : InPage q a) : p = q := by
  unfold InPage at h1 h2
  omega

/-- Everything but the contents of the memory and the allocator is the same. -/
structure SameRest (m m' : Memory) : Prop where
  sd : m'.sd = m.sd
  activePages : m'.activePages = m.activePages
  activePageCount : m'.activePageCount = m.activePageCount
  clockHead : m'.clockHead = m.clockHead
  swapPageStatus : m'.swapPageStatus = m.swapPageStatus
  swapStartSec : m'.swapStartSec = m.swapStartSec
  shmTable : m'.shmTable = m.shmTable

theorem SameRest.refl (m : Memory) : SameRest m m := ⟨rfl, rfl, rfl, rfl, rfl, rfl, rfl⟩

theorem SameRest.trans {m m' m'' : Memory} (h : SameRest m m') (h' : SameRest m' m'') : SameRest m m'' :=
  ⟨h'.sd.trans h.sd, h'.activePages.trans h.activePages, h'.activePageCount.trans h.activePageCount,
    h'.clockHead.trans h.clockHead, h'.swapPageStatus.trans h.swapPageStatus,
    h'.swapStartSec.trans h.swapStartSec, h'.shmTable.trans h.shmTable⟩

theorem writePte_rest (a v : ℕ) (m : Memory) : SameRest m (writePte a v m) :=
  ⟨rfl, rfl, rfl, rfl, rfl, rfl, rfl⟩

theorem clearPage_rest (p : ℕ) (m : Memory) : SameRest m (clearPage p m) :=
  ⟨rfl, rfl, rfl, rfl, rfl, rfl, rfl⟩

theorem allocPage_rest (n : ℕ) (m : Memory) : SameRest m (allocPage n m).2 := by
  unfold allocPage
  split <;> exact ⟨rfl, rfl, rfl, rfl, rfl, rfl, rfl⟩

theorem freePage_rest (p : ℕ) (m : Memory) : SameRest m (freePage p m) := by
  unfold freePage
  split <;> exact ⟨rfl, rfl, rfl, rfl, rfl, rfl, rfl⟩

/-! ## The allocator -/

/-- The allocator and the owners agree. -/
def HeapOwned (m : Memory) (own : ℕ → Owner) : Prop :=
  ∃ live freed, HeapInv ⟨m, live, freed⟩ ∧ (∀ p, own p = .free ↔ p ∈ freed) ∧
    ∀ p, (own p).Used → p ∈ live

namespace HeapOwned

variable {m m' : Memory} {own : ℕ → Owner} {p : ℕ}

theorem isPage (H : HeapOwned m own) (h : own p ≠ .unused) : IsPage p := by
  obtain ⟨live, freed, hi, hfree, hlive⟩ := H
  have hmem : p ∈ live ++ freed := by
    by_cases hf : own p = .free
    · exact List.mem_append_right _ ((hfree p).1 hf)
    · exact List.mem_append_left _ (hlive p ⟨h, hf⟩)
  obtain ⟨h1, h2, h3⟩ := hi.range p hmem
  exact ⟨h1, h2, h3.trans hi.curr.2.2⟩

/-- Writes to pages that are not free do not matter to the allocator. -/
theorem congr (H : HeapOwned m own) (hmem : ∀ p, own p = .free → ∀ a, InPage p a → m'.mem a = m.mem a)
    (hlist : m'.freePageList = m.freePageList) (hcount : m'.freePageListCount = m.freePageListCount)
    (hcurr : m'.kernMemCurr = m.kernMemCurr) : HeapOwned m' own := by
  obtain ⟨live, freed, hi, hfree, hlive⟩ := H
  refine ⟨live, freed, ⟨?_, ?_, hi.nodup, ?_, hcount.trans hi.count⟩, hfree, hlive⟩
  · show m'.kernMemCurr % _ = 0 ∧ _ ≤ m'.kernMemCurr ∧ m'.kernMemCurr ≤ _
    rw [hcurr]
    exact hi.curr
  · show ∀ p ∈ live ++ freed, _ ∧ _ ∧ p + pageSize ≤ m'.kernMemCurr
    rw [hcurr]
    exact hi.range
  · show Chain _ m'.freePageList freed
    rw [hlist]
    refine hi.chain.congr fun p hp => le_congr fun i hi => ?_
    exact hmem p ((hfree p).2 hp) _ ⟨by omega, by omega⟩

/-- A used page changes its use. -/
theorem retag (H : HeapOwned m own) {o : Owner} (h : (own p).Used) (ho : o.Used) :
    HeapOwned m (Function.update own p o) := by
  obtain ⟨live, freed, hi, hfree, hlive⟩ := H
  refine ⟨live, freed, hi, fun q => ?_, fun q hq => ?_⟩
  · by_cases hqp : q = p
    · subst hqp
      rw [Function.update_self, ← hfree q]
      exact iff_of_false ho.2 h.2
    · rw [Function.update_of_ne hqp, hfree q]
  · by_cases hqp : q = p
    · subst hqp
      exact hlive q h
    · rw [Function.update_of_ne hqp] at hq
      exact hlive q hq

/-- **freePage** of a used page. -/
theorem free (H : HeapOwned m own) (h : (own p).Used) :
    HeapOwned (freePage p m) (Function.update own p .free) := by
  obtain ⟨live, freed, hi, hfree, hlive⟩ := H
  refine ⟨live.erase p, p :: freed, hi.free (hlive p h), fun q => ?_, fun q hq => ?_⟩
  · by_cases hqp : q = p
    · subst hqp
      simp
    · rw [Function.update_of_ne hqp, hfree q, List.mem_cons]
      exact ⟨Or.inr, fun h => h.resolve_left hqp⟩
  · have hqp : q ≠ p := by
      rintro rfl
      rw [Function.update_self] at hq
      exact hq.2 rfl
    rw [Function.update_of_ne hqp] at hq
    exact (List.mem_erase_of_ne hqp).2 (hlive q hq)

/-- The free pages are those with the owner `free`. -/
theorem list (H : HeapOwned m own) : ∃ ps, Chain (readPte m) m.freePageList ps ∧ ps.Nodup ∧
    (∀ p, own p = .free ↔ p ∈ ps) ∧ m.freePageListCount = ps.length := by
  obtain ⟨live, freed, hi, hfree, -⟩ := H
  exact ⟨freed, hi.chain, (List.nodup_append.1 hi.nodup).2.1, hfree, hi.count⟩

/-- The owners after an allocation. -/
def handOut (own : ℕ → Owner) (ret n : ℕ) : ℕ → Owner := fun p =>
  if p ∈ pagesFrom ret n then .kernel else own p

/-- **allocPage**. -/
theorem alloc (H : HeapOwned m own) {n : ℕ} (hn : 1 ≤ n) (hroom : m.kernMemCurr + n * 4096 ≤ 2 ^ 64) :
    HeapOwned (allocPage n m).2 (handOut own (allocPage n m).1 n) ∧
      ∀ p ∈ pagesFrom (allocPage n m).1 n, ¬ (own p).Used := by
  obtain ⟨live, freed, hi, hfree, hlive⟩ := H
  have hstep : HeapInv ⟨(allocPage n m).2, pagesFrom (allocPage n m).1 n ++ live,
      freed.filter fun p => p ∉ pagesFrom (allocPage n m).1 n⟩ := by
    show HeapInv (Heap.step ⟨m, live, freed⟩ (.alloc n))
    by_cases hl : n = 1 ∧ m.freePageList ≠ 0
    · rw [hl.1]
      exact hi.allocList hl.2
    · exact hi.allocFresh hl hn hroom
  have hnew : ∀ p ∈ pagesFrom (allocPage n m).1 n, ¬ (own p).Used := by
    intro p hp hu
    have hnd : (pagesFrom (allocPage n m).1 n ++ live).Nodup := (List.nodup_append.1 hstep.nodup).1
    exact (List.nodup_append.1 hnd).2.2 p hp p (hlive p hu) rfl
  refine ⟨⟨_, _, hstep, fun p => ?_, fun p hp => ?_⟩, hnew⟩
  · unfold handOut
    by_cases hp : p ∈ pagesFrom (allocPage n m).1 n
    · rw [if_pos hp, List.mem_filter, decide_eq_true_eq]
      exact iff_of_false (fun h => nomatch h) fun h => h.2 hp
    · rw [if_neg hp, hfree p, List.mem_filter, decide_eq_true_eq]
      exact ⟨fun h => ⟨h, hp⟩, And.left⟩
  · unfold handOut at hp
    by_cases hmem : p ∈ pagesFrom (allocPage n m).1 n
    · exact List.mem_append_left _ hmem
    · rw [if_neg hmem] at hp
      exact List.mem_append_right _ (hlive p hp)

theorem handOut_one (own : ℕ → Owner) (q : ℕ) : handOut own q 1 = Function.update own q .kernel := by
  funext p
  unfold handOut
  rw [Function.update_apply]
  exact if_congr (by rw [pagesFrom_one, List.mem_singleton]) rfl rfl

end HeapOwned

/-- An allocation writes to the page that it takes from the list only. -/
theorem allocPage_mem {m : Memory} {n a : ℕ} (ha : ¬ InPage (allocPage n m).1 a) :
    (allocPage n m).2.mem a = m.mem a := by
  by_cases hl : n = 1 ∧ m.freePageList ≠ 0
  · obtain ⟨rfl, h0⟩ := hl
    rw [allocPage_list h0] at ha ⊢
    refine fill_out ?_
    unfold InPage at ha
    simp only [pageSize]
    omega
  · rw [allocPage_fresh hl]

theorem allocPage_curr (m : Memory) (n : ℕ) (hc : m.kernMemCurr % 4096 = 0) (h : m.kernMemCurr < 2 ^ 64) :
    m.kernMemCurr ≤ (allocPage n m).2.kernMemCurr ∧
      (allocPage n m).2.kernMemCurr ≤ m.kernMemCurr + n * 4096 := by
  by_cases hl : n = 1 ∧ m.freePageList ≠ 0
  · obtain ⟨rfl, h0⟩ := hl
    rw [allocPage_list h0]
    exact ⟨le_rfl, Nat.le_add_right _ _⟩
  · rw [allocPage_fresh hl]
    dsimp only
    rw [round_aligned hc, Nat.mod_eq_of_lt h]
    exact ⟨Nat.le_add_right _ _, le_rfl⟩

theorem freePage_mem {m : Memory} {p a : ℕ} (ha : ¬ InPage p a) : (freePage p m).mem a = m.mem a := by
  unfold freePage
  split
  · rfl
  · refine putLe_out ?_
    unfold InPage at ha
    omega

theorem freePage_curr (p : ℕ) (m : Memory) : (freePage p m).kernMemCurr = m.kernMemCurr := by
  unfold freePage
  split <;> rfl

/-- Every page that has been handed out is accounted for: a page with a use does not become one without, and the fresh
pages have uses. -/
structure Booked (m : Memory) (own : ℕ → Owner) (m' : Memory) (own' : ℕ → Owner) : Prop where
  old : ∀ p, own p ≠ .unused → own' p ≠ .unused
  fresh : ∀ p, p % 4096 = 0 → m.kernMemCurr ≤ p → p < m'.kernMemCurr → own' p ≠ .unused

namespace Booked

variable {m m' m'' : Memory} {own own' own'' : ℕ → Owner}

/-- Nothing has been handed out. -/
theorem same (h : ∀ p, own p ≠ .unused → own' p ≠ .unused) (hcurr : m'.kernMemCurr = m.kernMemCurr) :
    Booked m own m' own' := ⟨h, fun p _ h1 h2 => by omega⟩

theorem trans (h : Booked m own m' own') (h' : Booked m' own' m'' own'') : Booked m own m'' own'' := by
  refine ⟨fun p hp => h'.old p (h.old p hp), fun p hm h1 h2 => ?_⟩
  by_cases hp : p < m'.kernMemCurr
  · exact h'.old p (h.fresh p hm h1 hp)
  · exact h'.fresh p hm (by omega) h2

end Booked

/-- `k` single pages have been taken: from the list as long as there are any, then fresh ones. -/
structure Took (k : ℕ) (m m' : Memory) : Prop where
  sum : (m'.kernMemCurr : ℤ) - 4096 * m'.freePageListCount = m.kernMemCurr - 4096 * m.freePageListCount + 4096 * k
  fresh : m'.kernMemCurr = m.kernMemCurr ∨ m'.freePageListCount = 0
  curr : m.kernMemCurr ≤ m'.kernMemCurr
  log : ∃ evs, m'.pageLog = m.pageLog ++ evs ∧
    (∀ p, m.kernMemCurr ≤ p → p < m'.kernMemCurr → p % 4096 = 0 → .alloc p ∈ evs) ∧
    ∀ p, .alloc p ∈ evs → p + 4096 ≤ m'.kernMemCurr

namespace Took

variable {j k : ℕ} {m m' m'' : Memory}

/-- Nothing has happened to the allocator. -/
theorem zero (hcount : m'.freePageListCount = m.freePageListCount) (hcurr : m'.kernMemCurr = m.kernMemCurr)
    (hlog : m'.pageLog = m.pageLog) : Took 0 m m' :=
  ⟨by rw [hcount, hcurr]; omega, Or.inl hcurr, hcurr.ge, [], by rw [hlog, List.append_nil],
    fun p h1 h2 => by omega, fun p h => by cases h⟩

theorem trans (h : Took j m m') (h' : Took k m' m'') (hcount : 0 ≤ m''.freePageListCount) :
    Took (j + k) m m'' := by
  obtain ⟨evs, he, hin, hbelow⟩ := h.log
  obtain ⟨evs', he', hin', hbelow'⟩ := h'.log
  have h1 := h.sum
  have h2 := h'.sum
  have h3 := h.curr
  have h4 := h'.curr
  refine ⟨by push_cast; omega, ?_, h3.trans h4, evs ++ evs', by rw [he', he, List.append_assoc], fun p hp hp' hm => ?_,
    fun p hp => ?_⟩
  · rcases h.fresh with hf | hf <;> rcases h'.fresh with hf' | hf' <;> omega
  · by_cases hp1 : p < m'.kernMemCurr
    · exact List.mem_append_left _ (hin p hp hp1 hm)
    · exact List.mem_append_right _ (hin' p (by omega) hp' hm)
  · rcases List.mem_append.1 hp with hp | hp
    · exact (hbelow p hp).trans h4
    · exact hbelow' p hp

end Took

theorem HeapOwned.count_nonneg {m : Memory} {own : ℕ → Owner} (H : HeapOwned m own) : 0 ≤ m.freePageListCount := by
  obtain ⟨live, freed, hi, -, -⟩ := H
  exact hi.count ▸ Int.natCast_nonneg _

/-- **allocPage** gives its page a use. -/
theorem HeapOwned.booked {m : Memory} {own : ℕ → Owner} (H : HeapOwned m own) (hroom : m.kernMemCurr + 4096 ≤ 2 ^ 64)
    {o : Owner} (ho : o.Used) : Booked m own (allocPage 1 m).2 (Function.update own (allocPage 1 m).1 o) := by
  have hself : Function.update own (allocPage 1 m).1 o (allocPage 1 m).1 ≠ .unused := by
    rw [Function.update_self]
    exact ho.1
  refine ⟨fun p hp => ?_, fun p hm h1 h2 => ?_⟩
  · by_cases hq : p = (allocPage 1 m).1
    · rw [hq]
      exact hself
    · rwa [Function.update_of_ne hq]
  · suffices hq : p = (allocPage 1 m).1 by
      rw [hq]
      exact hself
    obtain ⟨live, freed, hi, -, -⟩ := H
    have hcurr : m.kernMemCurr % 4096 = 0 := hi.curr.1
    by_cases h0 : m.freePageList = 0
    · have hround : round m.kernMemCurr pageSize = m.kernMemCurr :=
        (round_aligned hcurr).trans (Nat.mod_eq_of_lt (by omega))
      rw [allocPage_fresh fun h => h.2 h0, hround] at h2 ⊢
      dsimp only [pageSize] at h2 ⊢
      omega
    · rw [allocPage_list h0] at h2
      exact absurd h2 (not_lt.2 h1)

/-- **allocPage** takes one page. -/
theorem HeapOwned.took {m : Memory} {own : ℕ → Owner} (H : HeapOwned m own) (hroom : m.kernMemCurr + 4096 ≤ 2 ^ 64) :
    Took 1 m (allocPage 1 m).2 := by
  obtain ⟨live, freed, hi, -, -⟩ := H
  by_cases h0 : m.freePageList = 0
  · have hl : ¬ (1 = 1 ∧ m.freePageList ≠ 0) := fun h => h.2 h0
    have hcount : m.freePageListCount = 0 := by
      have hnil : freed = [] := Chain.nil_of_zero (h0 ▸ hi.chain)
      rw [hi.count, hnil]
      rfl
    have hcurr : m.kernMemCurr % 4096 = 0 := hi.curr.1
    have hround : round m.kernMemCurr pageSize = m.kernMemCurr :=
      (round_aligned hcurr).trans (Nat.mod_eq_of_lt (by omega))
    rw [allocPage_fresh hl, hround]
    refine ⟨?_, Or.inr hcount, Nat.le_add_right _ _, _, rfl, fun p h1 h2 h3 => ?_, fun p hp => ?_⟩
    · dsimp only
      simp only [pageSize]
      push_cast
      ring
    · dsimp only [pageSize] at h2
      obtain rfl : p = m.kernMemCurr := by omega
      exact List.mem_singleton_self _
    · obtain rfl : p = m.kernMemCurr := by simpa using hp
      exact le_of_eq (by simp only [pageSize, one_mul])
  · rw [allocPage_list h0]
    obtain ⟨ps, hps, -⟩ : ∃ ps, freed = m.freePageList :: ps ∧ _ := hi.chain.cons_of_ne h0
    have hmem : m.freePageList ∈ live ++ freed := List.mem_append_right _ (by rw [hps]; exact List.mem_cons_self)
    refine ⟨?_, Or.inl rfl, le_rfl, _, rfl, fun p h1 h2 => ?_, fun p hp => ?_⟩
    · show (m.kernMemCurr : ℤ) - 4096 * (m.freePageListCount - 1) = _
      push_cast
      ring
    · exact absurd h2 (not_lt.2 h1)
    · obtain rfl : p = m.freePageList := by simpa using hp
      exact (hi.range _ hmem).2.2

end RiscvKernel.Mm
