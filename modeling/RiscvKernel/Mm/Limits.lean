import RiscvKernel.Mm.Alloc

/-!
# Where the pages lie

The allocator has no limit: it hands out the memory behind `kernMemCurr`, whatever lies there. The
scratch area of the file system and the loader (`TEMP`, `TEMP_BUF`) is on the way. Its ranges are where
they should be in the histories in which every request that fresh memory meets ends before the scratch
area, or lies between it and the end of the memory (`run_allocInside`).
-/

namespace RiscvKernel.Mm

open Lib

/-- The end of the scratch area: four pages for each of the numbers that `TEMP_BUF` is made of. -/
def scratchEnd : ℕ := temp + taskMaxnum * (4 * pageSize)

/-- The range of `n` pages lies in the free memory and not in the scratch area. -/
def Inside (base n : ℕ) : Prop :=
  freememKernel ≤ base ∧ base + n * pageSize ≤ memorySizeEnd ∧
    (base + n * pageSize ≤ temp ∨ scratchEnd ≤ base)

instance (base n : ℕ) : Decidable (Inside base n) := inferInstanceAs (Decidable (_ ∧ _))

/-- There is a range of `n` pages that are not in use. -/
def Left (h : Heap) (n : ℕ) : Prop :=
  ∃ base, base % pageSize = 0 ∧ Inside base n ∧ ∀ p ∈ pagesFrom base n, p ∉ h.live

/-- What callers of `allocPage` rely on: a range that it returns lies where it should, and it returns 0
when there is none. -/
structure AllocInside (h : Heap) (n : ℕ) : Prop where
  range : (allocPage n h.memory).1 ≠ 0 → Inside (allocPage n h.memory).1 n
  none : ¬ Left h n → (allocPage n h.memory).1 = 0

/-- The request is met by the list, or by fresh memory outside of the scratch area. -/
def HeapInside (h : Heap) : HeapOp → Prop
  | .alloc n => (n = 1 ∧ h.memory.freePageList ≠ 0) ∨ Inside h.memory.kernMemCurr n
  | _ => True

instance (h : Heap) : ∀ op, Decidable (HeapInside h op)
  | .alloc _ => inferInstanceAs (Decidable (_ ∨ _))
  | .free _ => isTrue trivial
  | .write _ _ => isTrue trivial

/-- The pages that have been handed out lie where they should. -/
structure InsideInv (h : Heap) : Prop where
  heap : HeapInv h
  pages : ∀ p ∈ h.live ++ h.freed, Inside p 1
  curr : h.memory.kernMemCurr ≤ memorySizeEnd

variable {h : Heap} {n : ℕ}

theorem HeapInside.fits {op : HeapOp} (hi : HeapInside h op) : HeapFits h op := by
  cases op with
  | alloc n =>
    refine hi.imp_right fun hin => hin.2.1.trans ?_
    unfold memorySizeEnd
    norm_num
  | free p => trivial
  | write a b => trivial

/-- Every page of a range inside is inside. -/
theorem Inside.page {base p : ℕ} (hi : Inside base n) (hp : p ∈ pagesFrom base n) : Inside p 1 := by
  obtain ⟨k, hk, rfl⟩ := mem_pagesFrom.1 hp
  obtain ⟨h1, h2, h3⟩ := hi
  unfold Inside
  simp only [pageSize] at *
  omega

section step
variable (H : InsideInv h)
include H

/-- What a request from fresh memory returns. -/
theorem InsideInv.fresh (hn : ¬ (n = 1 ∧ h.memory.freePageList ≠ 0)) :
    (allocPage n h.memory).1 = h.memory.kernMemCurr := by
  have hlt : h.memory.kernMemCurr < 2 ^ 64 := H.curr.trans_lt (by decide)
  rw [allocPage_fresh hn, round_aligned H.heap.curr.1, Nat.mod_eq_of_lt hlt]

/-- The first page of the list. -/
theorem InsideInv.head (hl : h.memory.freePageList ≠ 0) : h.memory.freePageList ∈ h.freed := by
  obtain ⟨qs, hq, -⟩ := H.heap.chain.cons_of_ne hl
  rw [hq]
  exact List.mem_cons_self

/-- A request is met as it should be if and only if it is met by the list or by fresh memory outside of
the scratch area. -/
theorem InsideInv.alloc_iff : AllocInside h n ↔ HeapInside h (.alloc n) := by
  by_cases hn : n = 1 ∧ h.memory.freePageList ≠ 0
  · refine iff_of_true ?_ (Or.inl hn)
    obtain ⟨rfl, hl⟩ := hn
    have hmem := H.head hl
    have hin := H.pages _ (List.mem_append_right _ hmem)
    have hret : (allocPage 1 h.memory).1 = h.memory.freePageList := by rw [allocPage_list hl]
    refine ⟨fun _ => by rwa [hret], fun hno => absurd ⟨h.memory.freePageList, ?_, hin, ?_⟩ hno⟩
    · exact (H.heap.range _ (List.mem_append_right _ hmem)).1
    · intro p hp hlive
      rw [pagesFrom_one, List.mem_singleton] at hp
      exact (List.nodup_append.1 H.heap.nodup).2.2 p hlive _ hmem hp
  · have hret := H.fresh hn
    have hne : (allocPage n h.memory).1 ≠ 0 := by
      rw [hret]
      have := H.heap.curr.2.1
      unfold freememKernel at this
      omega
    constructor
    · intro hA
      refine Or.inr ?_
      rw [← hret]
      exact hA.range hne
    · intro hi
      have hin := hi.resolve_left hn
      refine ⟨fun _ => by rwa [hret], fun hno => absurd ⟨_, H.heap.curr.1, hin, ?_⟩ hno⟩
      intro p hp hlive
      obtain ⟨k, hk, rfl⟩ := mem_pagesFrom.1 hp
      have := (H.heap.range _ (List.mem_append_left _ hlive)).2.2
      simp only [pageSize] at this
      omega

theorem InsideInv.step {op : HeapOp} (hr : HeapRules h op) (hi : HeapInside h op) :
    InsideInv (h.step op) := by
  refine ⟨H.heap.step hr hi.fits, ?_, ?_⟩
  · cases op with
    | alloc n =>
      have hret : ∀ p ∈ pagesFrom (allocPage n h.memory).1 n, Inside p 1 := by
        intro p hp
        by_cases hn : n = 1 ∧ h.memory.freePageList ≠ 0
        · obtain ⟨rfl, hl⟩ := hn
          rw [allocPage_list hl, pagesFrom_one, List.mem_singleton] at hp
          rw [hp]
          exact H.pages _ (List.mem_append_right _ (H.head hl))
        · rw [H.fresh hn] at hp
          exact (hi.resolve_left hn).page hp
      intro p hp
      change p ∈ (pagesFrom (allocPage n h.memory).1 n ++ h.live) ++ h.freed.filter _ at hp
      rcases List.mem_append.1 hp with hp | hp
      · rcases List.mem_append.1 hp with hp | hp
        · exact hret p hp
        · exact H.pages p (List.mem_append_left _ hp)
      · exact H.pages p (List.mem_append_right _ (List.mem_filter.1 hp).1)
    | free q =>
      intro p hp
      change p ∈ h.live.erase q ++ q :: h.freed at hp
      rcases List.mem_append.1 hp with hp | hp
      · exact H.pages p (List.mem_append_left _ (List.mem_of_mem_erase hp))
      · rcases List.mem_cons.1 hp with rfl | hp
        · exact H.pages p (List.mem_append_left _ hr)
        · exact H.pages p (List.mem_append_right _ hp)
    | write a b => exact H.pages
  · cases op with
    | alloc n =>
      show (allocPage n h.memory).2.kernMemCurr ≤ memorySizeEnd
      by_cases hn : n = 1 ∧ h.memory.freePageList ≠ 0
      · obtain ⟨rfl, hl⟩ := hn
        rw [allocPage_list hl]
        exact H.curr
      · have hret := H.fresh hn
        rw [allocPage_fresh hn] at hret ⊢
        dsimp only at hret ⊢
        rw [hret]
        exact (hi.resolve_left hn).2.1
    | free q =>
      show (freePage q h.memory).kernMemCurr ≤ memorySizeEnd
      unfold freePage
      split <;> exact H.curr
    | write a b => exact H.curr

end step

theorem insideInv_start {m : Memory} (h0 : HeapStart m) : InsideInv ⟨m, [], []⟩ := by
  refine ⟨⟨?_, by simp, by simp, h0.list, h0.count⟩, by simp, ?_⟩
  · rw [h0.curr]
    decide
  · show m.kernMemCurr ≤ memorySizeEnd
    rw [h0.curr]
    decide

/-- **The allocator stays inside** in every history in which the requests that fresh memory meets fit
outside of the scratch area. -/
theorem run_allocInside {m : Memory} (h0 : HeapStart m) {ops : List HeapOp}
    (hv : Run.Valid Heap.step (fun h op => HeapRules h op ∧ HeapInside h op) ⟨m, [], []⟩ ops) :
    ∀ pre n post, ops = pre ++ .alloc n :: post →
      AllocInside (Run.run Heap.step ⟨m, [], []⟩ pre) n := by
  rintro pre n post rfl
  obtain ⟨hpre, hop⟩ := Run.valid_append.1 hv
  have H := hpre.inv (I := InsideInv) (fun _ _ H hok => H.step hok.1 hok.2) (insideInv_start h0)
  exact H.alloc_iff.2 hop.1.2

/-- For a short history. -/
theorem allocInside_reuse : AllocInside (Run.run Heap.step ⟨freshMemory, [], []⟩
    [.alloc 1, .alloc 2, .free 0xffffffc052001000]) 1 :=
  run_allocInside ⟨rfl, rfl, rfl⟩ (show Run.Valid Heap.step _ ⟨freshMemory, [], []⟩
    [.alloc 1, .alloc 2, .free 0xffffffc052001000, .alloc 1] by decide +kernel)
    [.alloc 1, .alloc 2, .free 0xffffffc052001000] 1 [] rfl

/-- The first request for 112 MiB is met by a range that reaches into the scratch area. -/
theorem alloc_scratch : ¬ ∀ m ops, HeapStart m → Run.Valid Heap.step HeapRules ⟨m, [], []⟩ ops →
    ∀ pre n post, ops = pre ++ .alloc n :: post →
      AllocInside (Run.run Heap.step ⟨m, [], []⟩ pre) n := by
  intro hall
  have hA := hall freshMemory [.alloc 28672] ⟨rfl, rfl, rfl⟩ (by decide) [] 28672 [] rfl
  have hin := hA.range (by decide)
  exact absurd hin (by decide)

end RiscvKernel.Mm
