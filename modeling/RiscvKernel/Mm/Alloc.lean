import RiscvKernel.Lib.Chain
import RiscvKernel.Lib.Run
import RiscvKernel.Mm.Memory

/-!
# The page allocator

`allocPage` takes a single page from the list of free pages, which is linked through the first words of
the pages, and fresh memory otherwise; nothing stops it at the end of the memory. `Heap` is the allocator
with what its callers know: the pages in use and the pages that have been freed.
-/

namespace RiscvKernel.Mm

open Lib

def memorySizeEnd : ℕ := 0xffffffc060000000

/-- `get_free_memory`. -/
def getFreeMemory (m : Memory) : ℤ :=
  (if m.kernMemCurr % 2 ^ 64 < memorySizeEnd then ((memorySizeEnd - m.kernMemCurr % 2 ^ 64 : ℕ) : ℤ) else 0) +
    (m.freePageListCount * pageSize).bmod (2 ^ 32)

/-- The pages of an allocation. -/
def pagesFrom (base n : ℕ) : List ℕ := (List.range n).map fun k => base + k * pageSize

/-- The allocator, the pages in use and the pages that have been freed and not been handed out again. -/
structure Heap where
  memory : Memory
  live : List ℕ
  freed : List ℕ

/-- What happens to the memory. -/
inductive HeapOp
  | alloc (n : ℕ)
  | free (p : ℕ)
  | write (a : ℕ) (b : Byte)

def Heap.step (h : Heap) : HeapOp → Heap
  | .alloc n =>
    let (ret, m) := allocPage n h.memory
    ⟨m, pagesFrom ret n ++ h.live, h.freed.filter fun p => p ∉ pagesFrom ret n⟩
  | .free p => ⟨freePage p h.memory, h.live.erase p, p :: h.freed⟩
  | .write a b => { h with memory := { h.memory with mem := Function.update h.memory.mem a b } }

/-- The rules for the callers: the size of a request is an `int`, what is freed is in use, and pages that
have been freed are not written. -/
def HeapRules (h : Heap) : HeapOp → Prop
  | .alloc n => 1 ≤ n ∧ n * pageSize < 2 ^ 31
  | .free p => p ∈ h.live
  | .write a _ => ∀ p ∈ h.freed, a < p ∨ p + pageSize ≤ a

/-- The fresh memory that the operation takes ends in the address space. -/
def HeapFits (h : Heap) : HeapOp → Prop
  | .alloc n => (n = 1 ∧ h.memory.freePageList ≠ 0) ∨ h.memory.kernMemCurr + n * pageSize ≤ 2 ^ 64
  | _ => True

instance (h : Heap) : ∀ op, Decidable (HeapRules h op)
  | .alloc _ => inferInstanceAs (Decidable (_ ∧ _))
  | .free p => inferInstanceAs (Decidable (p ∈ h.live))
  | .write _ _ => inferInstanceAs (Decidable (∀ p ∈ h.freed, _))

instance (h : Heap) : ∀ op, Decidable (HeapFits h op)
  | .alloc _ => inferInstanceAs (Decidable (_ ∨ _))
  | .free _ => isTrue trivial
  | .write _ _ => isTrue trivial

/-- What callers rely on. -/
structure HeapSafe (h : Heap) : Prop where
  aligned : ∀ p ∈ h.live, p % pageSize = 0
  disjoint : h.live.Pairwise fun p q => p + pageSize ≤ q ∨ q + pageSize ≤ p
  list : ∃ ps, Chain (fun p => le h.memory.mem p 8) h.memory.freePageList ps ∧ ps.Nodup ∧
    (∀ p, p ∈ ps ↔ p ∈ h.freed) ∧ h.memory.freePageListCount = ps.length ∧
    (h.memory.kernMemCurr < memorySizeEnd →
      getFreeMemory h.memory = (memorySizeEnd : ℤ) - h.memory.kernMemCurr + pageSize * ps.length)
  zero : h.memory.freePageList ≠ 0 → ∀ i < pageSize,
    (allocPage 1 h.memory).2.mem ((allocPage 1 h.memory).1 + i) = 0#8

/-! ## The invariant -/

structure HeapInv (h : Heap) : Prop where
  curr : h.memory.kernMemCurr % pageSize = 0 ∧ freememKernel ≤ h.memory.kernMemCurr ∧
    h.memory.kernMemCurr ≤ 2 ^ 64
  range : ∀ p ∈ h.live ++ h.freed, p % pageSize = 0 ∧ freememKernel ≤ p ∧
    p + pageSize ≤ h.memory.kernMemCurr
  nodup : (h.live ++ h.freed).Nodup
  chain : Chain (fun p => le h.memory.mem p 8) h.memory.freePageList h.freed
  count : h.memory.freePageListCount = h.freed.length

variable {h : Heap} {m : Memory} {p n : ℕ}

theorem pagesFrom_one (p : ℕ) : pagesFrom p 1 = [p] := by simp [pagesFrom]

theorem mem_pagesFrom {base : ℕ} : p ∈ pagesFrom base n ↔ ∃ k < n, p = base + k * pageSize := by
  simp [pagesFrom, eq_comm]

theorem nodup_pagesFrom (base n : ℕ) : (pagesFrom base n).Nodup := by
  refine List.Nodup.map (fun j k he => ?_) List.nodup_range
  simp only [pageSize] at he
  omega

/-- A request that is met by fresh memory. -/
theorem allocPage_fresh (hn : ¬ (n = 1 ∧ m.freePageList ≠ 0)) :
    allocPage n m = (round m.kernMemCurr pageSize, { m with
      kernMemCurr := round m.kernMemCurr pageSize + n * pageSize
      pageLog := m.pageLog ++ [.alloc (round m.kernMemCurr pageSize)] }) := by
  rw [allocPage, if_neg hn]

/-- A request that is met by the list. -/
theorem allocPage_list (hp : m.freePageList ≠ 0) :
    allocPage 1 m = (m.freePageList, clearPage m.freePageList { m with
      freePageList := le m.mem m.freePageList 8
      freePageListCount := m.freePageListCount - 1
      pageLog := m.pageLog ++ [.alloc m.freePageList] }) := by
  rw [allocPage, if_pos ⟨rfl, hp⟩]

theorem round_aligned {a : ℕ} (ha : a % pageSize = 0) : round a pageSize = a % 2 ^ 64 := by
  unfold round
  have h1 : (a + pageSize - 1) / pageSize * pageSize = a := by
    simp only [pageSize] at ha ⊢
    omega
  rw [h1]

/-- Two pages do not overlap. -/
theorem pages_apart {q : ℕ} (hp : p % pageSize = 0) (hq : q % pageSize = 0) (hne : p ≠ q) :
    p + pageSize ≤ q ∨ q + pageSize ≤ p := by
  simp only [pageSize] at *
  omega

theorem HeapInv.head_lt (H : HeapInv h) : h.memory.freePageList < 2 ^ 64 := by
  by_cases h0 : h.memory.freePageList = 0
  · rw [h0]
    norm_num
  · obtain ⟨qs, hq, -⟩ := H.chain.cons_of_ne h0
    have h1 := (H.range h.memory.freePageList (by simp [hq])).2.2
    have h2 := H.curr.2.2
    simp only [pageSize] at h1
    omega

theorem HeapInv.write (H : HeapInv h) {a : ℕ} {b : Byte} (hok : HeapRules h (.write a b)) :
    HeapInv (h.step (.write a b)) := by
  refine ⟨H.curr, H.range, H.nodup, H.chain.congr fun p hp => le_congr fun i hi => ?_, H.count⟩
  have h1 := hok p hp
  refine Function.update_of_ne ?_ ..
  simp only [pageSize] at h1
  omega

/-- **freePage** of a page in use. -/
theorem HeapInv.free (H : HeapInv h) (hp : p ∈ h.live) : HeapInv (h.step (.free p)) := by
  obtain ⟨h1, h2, h3⟩ := H.range p (by simp [hp])
  have hp0 : p ≠ 0 := by
    simp only [freememKernel] at h2
    omega
  have hperm : (h.live.erase p ++ p :: h.freed).Perm (h.live ++ h.freed) :=
    List.perm_middle.trans (((List.perm_cons_erase hp).symm.append_right h.freed))
  have hstep : h.step (.free p) = ⟨{ h.memory with
      mem := putLe h.memory.mem p 8 h.memory.freePageList
      freePageList := p
      freePageListCount := h.memory.freePageListCount + 1
      pageLog := h.memory.pageLog ++ [.free p] }, h.live.erase p, p :: h.freed⟩ := by
    rw [Heap.step, freePage, if_neg hp0]
  rw [hstep]
  refine ⟨H.curr, fun q hq => H.range q (hperm.mem_iff.1 hq), hperm.nodup_iff.2 H.nodup,
    H.chain.push hp0 ?_ fun q hq => ?_, ?_⟩
  · show le (putLe h.memory.mem p 8 h.memory.freePageList) p 8 = h.memory.freePageList
    rw [le_putLe_self, Nat.mod_eq_of_lt]
    have := H.head_lt
    norm_num at this ⊢
    omega
  · obtain ⟨h4, -, -⟩ := H.range q (by simp [hq])
    have hne : q ≠ p := by
      rintro rfl
      exact (List.nodup_append.1 H.nodup).2.2 _ hp _ hq rfl
    have h5 := pages_apart h4 h1 hne
    refine le_putLe_of_disjoint ?_
    simp only [pageSize] at h5
    omega
  · simp [H.count]

/-- **allocPage** from the list. -/
theorem HeapInv.allocList (H : HeapInv h) (hp : h.memory.freePageList ≠ 0) : HeapInv (h.step (.alloc 1)) := by
  obtain ⟨qs, hq, hc⟩ := H.chain.cons_of_ne hp
  have hnd := H.nodup
  rw [hq, List.nodup_middle] at hnd
  obtain ⟨hnot, hnd⟩ := List.nodup_cons.1 hnd
  simp only [List.mem_append, not_or] at hnot
  have hfilter : (h.freed.filter fun p => p ∉ pagesFrom h.memory.freePageList 1) = qs := by
    rw [pagesFrom_one, hq, List.filter_cons_of_neg (by simp)]
    refine List.filter_eq_self.2 fun q hq' => ?_
    have : q ≠ h.memory.freePageList := fun he => hnot.2 (he ▸ hq')
    simpa using this
  have hstep : h.step (.alloc 1) = ⟨clearPage h.memory.freePageList { h.memory with
      freePageList := le h.memory.mem h.memory.freePageList 8
      freePageListCount := h.memory.freePageListCount - 1
      pageLog := h.memory.pageLog ++ [.alloc h.memory.freePageList] },
      h.memory.freePageList :: h.live, qs⟩ := by
    rw [Heap.step, allocPage_list hp]
    dsimp only
    rw [hfilter, pagesFrom_one]
    rfl
  rw [hstep]
  have hmem : ∀ q, q ∈ (h.memory.freePageList :: h.live) ++ qs ↔ q ∈ h.live ++ h.freed := by
    intro q
    rw [hq]
    simp only [List.cons_append, List.mem_cons, List.mem_append]
    tauto
  refine ⟨H.curr, fun q hq => H.range q ((hmem q).1 hq), ?_, hc.congr fun q hq' => ?_, ?_⟩
  · refine List.nodup_cons.2 ⟨?_, hnd⟩
    simpa using hnot
  · have hne : q ≠ h.memory.freePageList := fun he => hnot.2 (he ▸ hq')
    have h1 := (H.range q (by rw [hq]; simp [hq'])).1
    have h2 := (H.range h.memory.freePageList (by rw [hq]; simp)).1
    have h3 := pages_apart h1 h2 hne
    refine le_congr fun i hi => fill_out ?_
    simp only [pageSize] at h3 ⊢
    omega
  · have := H.count
    rw [hq, List.length_cons] at this
    show h.memory.freePageListCount - 1 = qs.length
    omega

/-- **allocPage** from fresh memory. -/
theorem HeapInv.allocFresh (H : HeapInv h) (hn : ¬ (n = 1 ∧ h.memory.freePageList ≠ 0)) (h1 : 1 ≤ n)
    (hf : h.memory.kernMemCurr + n * pageSize ≤ 2 ^ 64) : HeapInv (h.step (.alloc n)) := by
  obtain ⟨hc1, hc2, -⟩ := H.curr
  have hround : round h.memory.kernMemCurr pageSize = h.memory.kernMemCurr := by
    rw [round_aligned hc1, Nat.mod_eq_of_lt]
    simp only [pageSize] at hf
    omega
  have hnew : ∀ p ∈ pagesFrom h.memory.kernMemCurr n, p % pageSize = 0 ∧
      h.memory.kernMemCurr ≤ p ∧ p + pageSize ≤ h.memory.kernMemCurr + n * pageSize := by
    intro p hp
    obtain ⟨k, hk, rfl⟩ := mem_pagesFrom.1 hp
    simp only [pageSize] at hc1 ⊢
    omega
  have hold : ∀ p ∈ h.live ++ h.freed, p ∉ pagesFrom h.memory.kernMemCurr n := by
    intro p hp hp'
    have h2 := (H.range p hp).2.2
    have h3 := (hnew p hp').2.1
    simp only [pageSize] at h2
    omega
  have hfilter : (h.freed.filter fun p => p ∉ pagesFrom h.memory.kernMemCurr n) = h.freed := by
    refine List.filter_eq_self.2 fun q hq => ?_
    simpa using hold q (by simp [hq])
  have hstep : h.step (.alloc n) = ⟨{ h.memory with
      kernMemCurr := h.memory.kernMemCurr + n * pageSize
      pageLog := h.memory.pageLog ++ [.alloc h.memory.kernMemCurr] },
      pagesFrom h.memory.kernMemCurr n ++ h.live, h.freed⟩ := by
    rw [Heap.step, allocPage_fresh hn]
    dsimp only
    rw [hround, hfilter]
  rw [hstep]
  refine ⟨⟨?_, ?_, hf⟩, fun p hp => ?_, ?_, H.chain, H.count⟩
  · simp only [pageSize] at hc1 ⊢
    omega
  · show freememKernel ≤ h.memory.kernMemCurr + n * pageSize
    omega
  · have hp : p ∈ pagesFrom h.memory.kernMemCurr n ∨ p ∈ h.live ++ h.freed := by
      simpa [or_assoc] using hp
    rcases hp with hp | hp
    · obtain ⟨h2, h3, h4⟩ := hnew p hp
      exact ⟨h2, by omega, h4⟩
    · obtain ⟨h2, h3, h4⟩ := H.range p hp
      exact ⟨h2, h3, by show _ ≤ h.memory.kernMemCurr + n * pageSize; omega⟩
  · rw [List.append_assoc]
    refine List.nodup_append.2 ⟨nodup_pagesFrom _ n, H.nodup, fun p hp q hq he => ?_⟩
    exact hold q hq (he ▸ hp)

theorem HeapInv.step {op : HeapOp} (H : HeapInv h) (hr : HeapRules h op) (hf : HeapFits h op) :
    HeapInv (h.step op) := by
  cases op with
  | alloc n =>
    by_cases hn : n = 1 ∧ h.memory.freePageList ≠ 0
    · rw [hn.1]
      exact H.allocList hn.2
    · exact H.allocFresh hn hr.1 (hf.resolve_left hn)
  | free p => exact H.free hr
  | write a b => exact H.write hr

/-! ## What the invariant says -/

/-- The pages in the list are in the memory that has been handed out. -/
theorem HeapInv.length_le (H : HeapInv h) :
    freememKernel + h.freed.length * pageSize ≤ h.memory.kernMemCurr := by
  have hnd : h.freed.Nodup := (List.nodup_append.1 H.nodup).2.1
  have hr : ∀ p ∈ h.freed, p % pageSize = 0 ∧ freememKernel ≤ p ∧ p + pageSize ≤ h.memory.kernMemCurr :=
    fun p hp => H.range p (by simp [hp])
  have hinj : ∀ p ∈ h.freed, ∀ q ∈ h.freed, p / pageSize = q / pageSize → p = q := by
    intro p hp q hq he
    have h1 := (hr p hp).1
    have h2 := (hr q hq).1
    simp only [pageSize] at h1 h2 he
    omega
  have hsub : (h.freed.map (· / pageSize)).toFinset ⊆
      Finset.Ico (freememKernel / pageSize) (h.memory.kernMemCurr / pageSize) := by
    intro k hk
    obtain ⟨p, hp, rfl⟩ := List.mem_map.1 (List.mem_toFinset.1 hk)
    obtain ⟨h1, h2, h3⟩ := hr p hp
    rw [Finset.mem_Ico]
    simp only [pageSize, freememKernel] at *
    omega
  have hcard := Finset.card_le_card hsub
  rw [List.toFinset_card_of_nodup (hnd.map_on hinj), List.length_map, Nat.card_Ico] at hcard
  obtain ⟨hc1, hc2, -⟩ := H.curr
  simp only [pageSize, freememKernel] at *
  omega

theorem HeapInv.getFreeMemory (H : HeapInv h) (hc : h.memory.kernMemCurr < memorySizeEnd) :
    getFreeMemory h.memory = (memorySizeEnd : ℤ) - h.memory.kernMemCurr + pageSize * h.freed.length := by
  have hl := H.length_le
  have hmod : h.memory.kernMemCurr % 2 ^ 64 = h.memory.kernMemCurr := by
    rw [Nat.mod_eq_of_lt]
    simp only [memorySizeEnd] at hc
    omega
  have hb : (h.memory.freePageListCount * pageSize).bmod (2 ^ 32) = pageSize * h.freed.length := by
    rw [H.count]
    simp only [pageSize, memorySizeEnd, freememKernel] at *
    rw [Int.bmod_def]
    split_ifs <;> omega
  rw [Mm.getFreeMemory, hmod, if_pos hc, hb]
  omega

theorem HeapInv.safe (H : HeapInv h) : HeapSafe h := by
  have hnd := List.nodup_append.1 H.nodup
  refine ⟨fun p hp => (H.range p (by simp [hp])).1, ?_, ⟨h.freed, H.chain, hnd.2.1, fun _ => Iff.rfl, H.count,
    H.getFreeMemory⟩, fun h0 i hi => ?_⟩
  · refine hnd.1.imp_of_mem fun {p q} hp hq hne => ?_
    exact pages_apart (H.range p (by simp [hp])).1 (H.range q (by simp [hq])).1 hne
  · rw [allocPage_list h0]
    exact fill_in (by simp) (by simpa using hi)

/-- The allocator before its first use. -/
structure HeapStart (m : Memory) : Prop where
  list : m.freePageList = 0
  count : m.freePageListCount = 0
  curr : m.kernMemCurr = freememKernel

/-- **The allocator is safe** in every history of allocations, frees and writes in which the fresh memory
ends in the address space. -/
theorem run_heapSafe (h0 : HeapStart m) {ops : List HeapOp}
    (hv : Run.Valid Heap.step (fun h op => HeapRules h op ∧ HeapFits h op) ⟨m, [], []⟩ ops) :
    HeapSafe (Run.run Heap.step ⟨m, [], []⟩ ops) := by
  have hstart : HeapInv ⟨m, [], []⟩ := by
    refine ⟨?_, by simp, by simp, h0.list, h0.count⟩
    rw [h0.curr]
    decide
  exact (hv.inv (I := HeapInv) (fun _ _ H hok => H.step hok.1 hok.2) hstart).safe

/-- A memory without free pages. -/
def freshMemory : Memory where
  mem := fun _ => 1#8
  sd := fun _ => 0#8
  tasks := fun _ => ⟨[], 0, 0, 0, 0⟩
  freePageList := 0
  freePageListCount := 0
  kernMemCurr := freememKernel
  activePages := fun _ => ⟨0, 0, 0, 0, false⟩
  activePageCount := 0
  clockHead := 0
  swapPageStatus := fun _ => false
  swapStartSec := 0
  shmTable := fun _ => ⟨-1, 0, 0, 0, false⟩
  pageLog := []

/-- Two pages are freed and one of them is handed out again. -/
theorem heapSafe_reuse : HeapSafe (Run.run Heap.step ⟨freshMemory, [], []⟩
    [.alloc 1, .alloc 2, .free 0xffffffc052003000, .free 0xffffffc052001000, .write 0xffffffc052002008 7#8,
      .alloc 1]) :=
  run_heapSafe ⟨rfl, rfl, rfl⟩ (by decide +kernel)

/-! ## The end of the address space -/

/-- Many allocations of more than one page. -/
theorem run_allocs {k : ℕ} (hn : 2 ≤ n) (hf : h.freed = []) (hl : h.memory.freePageList = 0)
    (hc : h.memory.kernMemCurr % pageSize = 0)
    (hk : h.memory.kernMemCurr + k * (n * pageSize) ≤ 2 ^ 64) (hsize : n * pageSize < 2 ^ 31) :
    Run.Valid Heap.step HeapRules h (List.replicate k (.alloc n)) ∧
    (Run.run Heap.step h (List.replicate k (.alloc n))).freed = [] ∧
    (Run.run Heap.step h (List.replicate k (.alloc n))).memory.freePageList = 0 ∧
    (Run.run Heap.step h (List.replicate k (.alloc n))).memory.kernMemCurr =
      h.memory.kernMemCurr + k * (n * pageSize) := by
  induction k generalizing h with
  | zero => exact ⟨trivial, hf, hl, by simp [Run.run]⟩
  | succ k ih =>
    have hlt : h.memory.kernMemCurr < 2 ^ 64 := by
      simp only [pageSize] at hk
      rw [Nat.succ_mul] at hk
      omega
    have hstep : h.step (.alloc n) = ⟨{ h.memory with
        kernMemCurr := h.memory.kernMemCurr + n * pageSize
        pageLog := h.memory.pageLog ++ [.alloc h.memory.kernMemCurr] },
        pagesFrom h.memory.kernMemCurr n ++ h.live, []⟩ := by
      rw [Heap.step, allocPage_fresh (by omega)]
      dsimp only
      rw [round_aligned hc, Nat.mod_eq_of_lt hlt, hf, List.filter_nil]
    have hc' : (h.memory.kernMemCurr + n * pageSize) % pageSize = 0 := by
      simp only [pageSize] at hc ⊢
      omega
    rw [Nat.succ_mul] at hk
    rw [List.replicate_succ]
    obtain ⟨h1, h2, h3, h4⟩ := ih (h := h.step (.alloc n)) (by rw [hstep]) (by rw [hstep]; exact hl)
      (by rw [hstep]; exact hc') (by rw [hstep]; dsimp only; omega)
    refine ⟨⟨⟨by omega, hsize⟩, h1⟩, h2, h3, h4.trans ?_⟩
    rw [hstep, Nat.succ_mul]
    dsimp only
    omega

/-- 254 GiB and the rest of the address space are handed out, then one more page, the page at address 0,
which `freePage` does not take back. -/
def wrapOps : List HeapOp := List.replicate 254 (.alloc (2 ^ 18)) ++ [.alloc 188415, .alloc 1, .free 0]

theorem heap_wraps : ¬ ∀ m ops, HeapStart m → Run.Valid Heap.step HeapRules ⟨m, [], []⟩ ops →
    HeapSafe (Run.run Heap.step ⟨m, [], []⟩ ops) := by
  intro hall
  obtain ⟨hv, hf, hl, hc⟩ := run_allocs (h := ⟨freshMemory, [], []⟩) (n := 2 ^ 18) (k := 254) (by norm_num)
    rfl rfl (by decide) (by decide) (by decide)
  have hsafe := hall freshMemory wrapOps ⟨rfl, rfl, rfl⟩
  rw [wrapOps, Run.valid_append, Run.run_append] at hsafe
  generalize Run.run Heap.step ⟨freshMemory, [], []⟩ (List.replicate 254 (.alloc (2 ^ 18))) = h at *
  obtain ⟨m, live, freed⟩ := h
  obtain rfl : freed = [] := hf
  have hc : m.kernMemCurr = 0xffffffffd2001000 := hc
  have hl : m.freePageList = 0 := hl
  have h1 : Heap.step ⟨m, live, []⟩ (.alloc 188415) = ⟨{ m with
      kernMemCurr := 2 ^ 64
      pageLog := m.pageLog ++ [.alloc m.kernMemCurr] }, pagesFrom m.kernMemCurr 188415 ++ live, []⟩ := by
    rw [Heap.step, allocPage_fresh (by omega)]
    dsimp only
    rw [round_aligned (by rw [hc]; decide), Nat.mod_eq_of_lt (by rw [hc]; decide), hc, List.filter_nil]
    rfl
  generalize pagesFrom m.kernMemCurr 188415 ++ live = live1 at h1
  have h2 : Heap.step ⟨{ m with
      kernMemCurr := 2 ^ 64
      pageLog := m.pageLog ++ [.alloc m.kernMemCurr] }, live1, []⟩ (.alloc 1) = ⟨{ m with
      kernMemCurr := 4096
      pageLog := m.pageLog ++ [.alloc m.kernMemCurr] ++ [.alloc 0] }, 0 :: live1, []⟩ := by
    rw [Heap.step, allocPage_fresh (by simp [hl])]
    dsimp only
    rw [round_aligned (by decide), Nat.mod_self, pagesFrom_one, List.filter_nil]
    rfl
  have h3 : Heap.step ⟨{ m with
      kernMemCurr := 4096
      pageLog := m.pageLog ++ [.alloc m.kernMemCurr] ++ [.alloc 0] }, 0 :: live1, []⟩ (.free 0) = ⟨{ m with
      kernMemCurr := 4096
      pageLog := m.pageLog ++ [.alloc m.kernMemCurr] ++ [.alloc 0] }, live1, [0]⟩ := by
    rw [Heap.step, List.erase_cons_head]
    rfl
  have hs := (hsafe ⟨hv, ⟨by decide, by decide⟩, ?_⟩).list
  · rw [Run.run, Run.run, Run.run, Run.run, h1, h2, h3] at hs
    obtain ⟨ps, hchain, -, hmem, -⟩ := hs
    rw [hl] at hchain
    have := (hmem 0).2 (by simp)
    rw [hchain.nil_of_zero] at this
    cases this
  · rw [h1]
    refine ⟨⟨by decide, by decide⟩, ?_, trivial⟩
    rw [h2]
    exact List.mem_cons_self

end RiscvKernel.Mm
