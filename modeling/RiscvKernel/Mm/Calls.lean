import RiscvKernel.Mm.Swap
import RiscvKernel.Sched.Channels

/-!
# Page faults and the pages of pipes

What `handle_page_fault`, and one round of `sys_pipe_give_pages` and `sys_pipe_take_pages`, do to address
spaces that are in order.
-/

namespace RiscvKernel.Mm

open Lib

section fault
variable {m m' : Memory} {own own' : ℕ → Owner} {r va : ℕ}

theorem pa2kva_kva2pa {q : ℕ} (hq : IsPage q) : pa2kva (kva2pa q) = q := by
  obtain ⟨h1, h2, h3⟩ := hq.bounds
  rw [kva2pa_page hq]
  unfold pa2kva
  unfold kvaPaOffset at *
  omega

theorem clearPage_zero {q i : ℕ} (hi : i < 4096) : (clearPage q m).mem (q + i) = 0#8 :=
  fill_in (by omega) (by unfold pageSize; omega)

theorem swapIn_mem {q swapId i : ℕ} (hi : i < 4096) : (swapIn q swapId m).mem (q + i) = m.sd (swapOffset swapId m + i) :=
  blit_in (by unfold sectorNumsPerPage sectorSize; omega)

theorem swapOffset_of_start (h : m'.swapStartSec = m.swapStartSec) (swapId : ℕ) :
    swapOffset swapId m' = swapOffset swapId m := by
  unfold swapOffset
  rw [h]

/-- What the mapping of a new page does: the page `q` is at page number `v` of `r`, and was not in use. -/
structure Provided (m : Memory) (own : ℕ → Owner) (m' : Memory) (own' : ℕ → Owner) (r v q : ℕ) : Prop where
  space : SpaceOk m' own'
  frame : Frame {.data r v} m own m' own'
  untouched : Untouched {.data r v} m own m'
  owner : own' q = .data r v
  present : Present (entry m' r v)
  target : target (entry m' r v) = q
  sd : m'.sd = m.sd
  start : m'.swapStartSec = m.swapStartSec
  curr : m'.kernMemCurr ≤ m.kernMemCurr + 3 * 4096

theorem allocPageHelper_eq (va r : ℕ) (m : Memory) :
    allocPageHelper va r m = ((allocPage 1 m).1, mapPage va (kva2pa (allocPage 1 m).1) r
      (pagePresent ||| pageRead ||| pageWrite ||| pageExec ||| pageUser)
      (clearPage (allocPage 1 m).1 (allocPage 1 m).2)) := by
  unfold allocPageHelper
  generalize allocPage 1 m = x
  obtain ⟨q, m1⟩ := x
  rfl

/-- The page `q`, which was not in use, and tables of `r` are the only pages with a new use. -/
structure NewPage (m : Memory) (own : ℕ → Owner) (m' : Memory) (own' : ℕ → Owner) (r q : ℕ) : Prop where
  new : ¬ (own q).Used
  kept : ∀ p, (own p).Used → own' p = own p
  changed : ∀ p, p ≠ q → own' p ≠ own p → (own' p).Below r
  booked : Booked m own m' own'

/-- What `alloc_page_helper` has written and what it took: a page that was not in use, and the missing tables. -/
structure PageMade (m : Memory) (own : ℕ → Owner) (m' : Memory) (own' : ℕ → Owner) (r v q : ℕ) : Prop
    extends NewPage m own m' own' r q where
  writes : ∀ b, m'.mem b ≠ m.mem b → InPage q b ∨ ∃ p, InPage p b ∧ (p = r ∨ (own' p).Below r)
  zero : ∀ i < 4096, m'.mem (q + i) = 0#8
  rest : SameRest m m'
  has : ∀ o : Owner, o.IsTable → (Has own' o ↔ Has own o ∨ o = .mid r (v / 2 ^ 18) ∨ o = .tab r (v / 512))
  cost : ∃ j k, Took (1 + (j + k)) m m' ∧ Cost own (.mid r (v / 2 ^ 18)) j ∧ Cost own (.tab r (v / 512)) k

/-- `alloc_page_helper` at an address where no page is, with what it takes. -/
theorem allocPageHelper_made (S : SpaceOk m own) (hr : own r = .root) (hv : vpn va < userPages)
    (hentry : ¬ Present (entry m r (vpn va))) (hroom : m.kernMemCurr + 3 * 4096 ≤ 2 ^ 64) :
    ∃ own', Provided m own (allocPageHelper va r m).2 own' r (vpn va) (allocPageHelper va r m).1 ∧
      PageMade m own (allocPageHelper va r m).2 own' r (vpn va) (allocPageHelper va r m).1 := by
  obtain ⟨S1, F1, U1, hu, hq, hcurr⟩ := S.alloc (by omega)
  have hrest1 := allocPage_rest 1 m
  have hT := S.heap.took (by omega)
  have hB := S.heap.booked (by omega) (o := .kernel) ⟨nofun, nofun⟩
  have hmem1 (a : ℕ) (ha : ¬ InPage (allocPage 1 m).1 a) := allocPage_mem (m := m) (n := 1) ha
  rw [allocPageHelper_eq]
  dsimp only
  generalize (allocPage 1 m).1 = q at *
  generalize (allocPage 1 m).2 = m1 at *
  have hkernel : Function.update own q Owner.kernel q = .kernel := Function.update_self _ _ _
  have hused : (Function.update own q Owner.kernel q).Used := by
    rw [hkernel]
    exact ⟨nofun, nofun⟩
  obtain ⟨S2, F2⟩ := S1.scribble hused (by rw [hkernel]; exact id) (fun a ha => clearPage_mem ha)
    (clearPage_rest q m1) rfl rfl rfl
  have U2 : Untouched ∅ m1 (Function.update own q .kernel) (clearPage q m1) :=
    untouched_of_page S1.heap.aligned hused.1 (fun h => absurd h (by rw [hkernel]; exact id)) fun a ha => clearPage_mem ha
  have F12 : Frame {.data r (vpn va)} m own (clearPage q m1) (Function.update own q .kernel) :=
    (F1.trans F2).mono (Set.empty_subset _)
  have hentry2 : ¬ Present (entry (clearPage q m1) r (vpn va)) := fun hp =>
    hentry (((F1.trans F2).entry hr hv id).present.1 hp)
  obtain ⟨own3, S3, ho, M, W⟩ := S2.mapPage_made ((F12.root r).2 hr) hv hkernel
    (show mapFlags (pagePresent ||| pageRead ||| pageWrite ||| pageExec ||| pageUser) < 1024 by decide)
    (by decide) hentry2 (by show m1.kernMemCurr + _ ≤ _; omega)
  have hhas (o : Owner) (h : o.IsTable) : Has (Function.update own q .kernel) o ↔ Has own o := by
    rw [Has.update hu h.used, or_iff_left]
    rintro rfl
    exact h
  have hcost {o : Owner} {k : ℕ} (h : o.IsTable) : Cost (Function.update own q .kernel) o k ↔ Cost own o k := by
    unfold Cost
    rw [hhas o h]
  refine ⟨own3, ⟨S3, F12.trans M.frame, ?_, ho, ?_, ?_, ?_, ?_, ?_⟩, ⟨hu, fun p hp => ?_, fun p hpq hne => ?_, ?_⟩, fun b hb => ?_,
    fun i hi => ?_, ?_, fun o h => (W.has o h).trans (or_congr_left (hhas o h)), ?_⟩
  · exact ((U1.trans F1 U2).mono (Set.empty_subset _)).trans F12 M.untouched
  · rw [M.entry]
    exact present_mapped
  · rw [M.entry]
    exact target_mkEntry hq (by decide)
  · exact M.rest.sd.trans hrest1.sd
  · exact M.rest.swapStartSec.trans hrest1.swapStartSec
  · have := M.curr
    have h1 : (clearPage q m1).kernMemCurr = m1.kernMemCurr := rfl
    omega
  · have hpq : p ≠ q := by
      rintro rfl
      exact hu hp
    exact (W.kept p hpq (by rwa [Function.update_of_ne hpq])).trans (Function.update_of_ne hpq _ _)
  · exact W.changed p hpq (by rwa [Function.update_of_ne hpq])
  · exact hB.trans ⟨W.booked.old, W.booked.fresh⟩
  · by_cases hbq : InPage q b
    · exact Or.inl hbq
    · refine Or.inr (W.writes b fun he => hb ?_)
      rw [he, clearPage_mem hbq, hmem1 b hbq]
  · exact (M.contents _ ⟨by omega, by omega⟩).trans (clearPage_zero hi)
  · exact hrest1.trans ((clearPage_rest q m1).trans M.rest)
  · obtain ⟨j, k, hT', hj, hk⟩ := W.cost
    have hT2 : Took (j + k) m1 _ := ⟨hT'.sum, hT'.fresh, hT'.curr, hT'.log⟩
    exact ⟨j, k, hT.trans hT2 S3.heap.count_nonneg, (hcost (o := .mid _ _) trivial).1 hj,
      (hcost (o := .tab _ _) trivial).1 hk⟩

/-- What `handle_page_fault` finds out about the address. -/
theorem fault_entry (va r : ℕ) (m : Memory) :
    ((getPte va r m).bind fun pte =>
      if getAttribute (readPte m pte) pagePresent = 0 ∧ getAttribute (readPte m pte) pageSwap ≠ 0 then
        some (readPte m pte / 2 ^ 10)
      else none) =
      if Swapped (entry m r (vpn va)) then some (swapIdOf (entry m r (vpn va))) else none := by
  cases ha : getPte va r m with
  | none =>
    have h0 : entry m r (vpn va) = 0 := by
      unfold entry
      rw [← getPte_vpn, ha]
    rw [h0, if_neg not_swapped_zero]
    rfl
  | some a =>
    rw [entry_eq ha, Option.bind_some]
    exact if_congr (and_congr_left fun _ => not_not.symm) rfl rfl

theorem handlePageFault_eq (va r : ℕ) (m : Memory) :
    handlePageFault va r m = ((allocPageHelper va r m).1,
      if Swapped (entry m r (vpn va)) then
        swapIn (allocPageHelper va r m).1 (swapIdOf (entry m r (vpn va))) (allocPageHelper va r m).2
      else clearPage (allocPageHelper va r m).1 (allocPageHelper va r m).2) := by
  unfold handlePageFault
  rw [fault_entry]
  generalize allocPageHelper va r m = x
  obtain ⟨q, m1⟩ := x
  by_cases hs : Swapped (entry m r (vpn va))
  · rw [if_pos hs, if_pos hs]
  · rw [if_neg hs, if_neg hs]

/-- A slot that no entry has becomes free. -/
theorem SwapOk.release {swapId : ℕ} (W : SwapOk m own)
    (h : ∀ {r v}, own r = .root → v < userPages → Swapped (entry m r v) → swapIdOf (entry m r v) ≠ swapId)
    (hmem : m'.mem = m.mem) (hstatus : m'.swapPageStatus = Function.update m.swapPageStatus swapId false) :
    SwapOk m' own := by
  refine ⟨fun {r v} hr hv => ?_, fun {r v r' v'} => ?_⟩
  · rw [entry_mem hmem, hstatus]
    intro hs
    rw [Function.update_of_ne (h hr hv hs)]
    exact W.taken hr hv hs
  · rw [entry_mem hmem, entry_mem hmem]
    exact W.distinct

/-- After a page has got a frame, no other entry has its slot. -/
theorem SwapOk.alone {v : ℕ} (W : SwapOk m own) (F : Frame {.data r v} m own m' own') (hr : own r = .root)
    (hv : v < userPages) (hs : Swapped (entry m r v)) (hnew : ¬ Swapped (entry m' r v)) {r' v' : ℕ}
    (hr' : own' r' = .root) (hv' : v' < userPages) (hs' : Swapped (entry m' r' v')) :
    swapIdOf (entry m' r' v') ≠ swapIdOf (entry m r v) := by
  have hr'' := (F.root r').1 hr'
  by_cases hx : Owner.data r' v' ∈ ({.data r v} : Set Owner)
  · cases hx
    exact absurd hs' hnew
  · have heq := (F.entry hr'' hv' hx).swapped hs'
    rw [heq] at hs' ⊢
    intro he
    obtain ⟨rfl, rfl⟩ := W.distinct hr'' hv' hs' hr hv hs he
    exact hx rfl

/-- What a page fault does to the slots of the swap area. -/
def Released (m m' : Memory) (r v : ℕ) : Prop :=
  m'.swapPageStatus = if Swapped (entry m r v) then Function.update m.swapPageStatus (swapIdOf (entry m r v)) false
    else m.swapPageStatus

theorem pageOf_of_present {v q off : ℕ} (hp : Present (entry m r v)) (ht : target (entry m r v) = q) :
    pageOf m r v off = m.mem (q + off) := by
  unfold pageOf
  rw [if_pos hp, ht]

/-- Writes to the new page. -/
theorem Provided.scribble {m2 : Memory} {v q : ℕ} (P : Provided m own m' own' r v q) (hr : own r = .root)
    (hv : v < userPages) (hmem : ∀ a, ¬ InPage q a → m2.mem a = m'.mem a) (R : SameRest m' m2)
    (hlist : m2.freePageList = m'.freePageList) (hcount : m2.freePageListCount = m'.freePageListCount)
    (hcurr : m2.kernMemCurr = m'.kernMemCurr) : Provided m own m2 own' r v q := by
  have hused : (own' q).Used := by
    rw [P.owner]
    exact ⟨nofun, nofun⟩
  obtain ⟨S2, F2⟩ := P.space.scribble hused (by rw [P.owner]; exact id) hmem R hlist hcount hcurr
  have hlike := F2.entry ((P.frame.root r).2 hr) hv id
  have U2 : Untouched {.data r v} m' own' m2 :=
    untouched_of_page P.space.heap.aligned hused.1 (fun _ => P.owner) hmem
  exact ⟨S2, P.frame.trans (F2.mono (Set.empty_subset _)), P.untouched.trans P.frame U2, P.owner,
    hlike.present.2 P.present, hlike.target.trans P.target, R.sd.trans P.sd, R.swapStartSec.trans P.start,
    hcurr ▸ P.curr⟩

/-- The slot of the page becomes free. -/
theorem Provided.release {v q : ℕ} (P : Provided m own m' own' r v q) (S : SpaceOk m own) (hr : own r = .root)
    (hv : v < userPages) (hs : Swapped (entry m r v)) :
    Provided m own { m' with swapPageStatus := Function.update m'.swapPageStatus (swapIdOf (entry m r v)) false }
      own' r v q := by
  have W : SwapOk { m' with swapPageStatus := Function.update m'.swapPageStatus (swapIdOf (entry m r v)) false } own' :=
    P.space.swap.release (fun {r' v'} => S.swap.alone P.frame hr hv hs fun h => h.1 P.present) rfl rfl
  have hentry : entry { m' with swapPageStatus := Function.update m'.swapPageStatus (swapIdOf (entry m r v)) false } r v =
      entry m' r v := entry_mem rfl r v
  refine ⟨P.space.fields rfl rfl rfl rfl rfl (P.space.active.of_mem rfl rfl rfl P.space.active.clock) W,
    P.frame.trans (frame_of_mem _ _ rfl), P.untouched, P.owner, ?_, ?_, P.sd, P.start, P.curr⟩
  · rw [hentry]
    exact P.present
  · rw [hentry]
    exact P.target

/-- **handle_page_fault** at an address where no page is. -/
theorem handlePageFault_spec (S : SpaceOk m own) (hr : own r = .root) (hv : vpn va < userPages)
    (hentry : ¬ Present (entry m r (vpn va))) (hroom : m.kernMemCurr + 3 * 4096 ≤ 2 ^ 64) :
    ∃ own', Provided m own (handlePageFault va r m).2 own' r (vpn va) (handlePageFault va r m).1 ∧
      NewPage m own (handlePageFault va r m).2 own' r (handlePageFault va r m).1 ∧
      (handlePageFault va r m).2.shmTable = m.shmTable ∧
      (∀ off < 4096, pageOf (handlePageFault va r m).2 r (vpn va) off = pageOf m r (vpn va) off) ∧
      Released m (handlePageFault va r m).2 r (vpn va) := by
  obtain ⟨own', P, M⟩ := allocPageHelper_made S hr hv hentry hroom
  have N := M.toNewPage
  have R := M.rest
  rw [handlePageFault_eq]
  generalize allocPageHelper va r m = x at *
  obtain ⟨q, m1⟩ := x
  dsimp only at *
  by_cases hs : Swapped (entry m r (vpn va))
  · rw [if_pos hs]
    have hmem : ∀ a, ¬ InPage q a → (swapRead q (swapIdOf (entry m r (vpn va))) m1).mem a = m1.mem a := fun a ha => by
      refine blit_out ?_
      unfold InPage at ha
      unfold sectorNumsPerPage sectorSize
      omega
    have P2 := P.scribble hr hv hmem ⟨rfl, rfl, rfl, rfl, rfl, rfl, rfl⟩ rfl rfl rfl
    have P3 : Provided m own (swapIn q (swapIdOf (entry m r (vpn va))) m1) own' r (vpn va) q := P2.release S hr hv hs
    refine ⟨own', P3, ⟨N.new, N.kept, N.changed, N.booked.old, N.booked.fresh⟩, R.shmTable, fun off hoff => ?_, ?_⟩
    · rw [pageOf_of_present P3.present P3.target, swapIn_mem hoff, P.sd, swapOffset_of_start P.start]
      unfold pageOf
      rw [if_neg hentry, if_pos hs]
    · unfold Released
      rw [if_pos hs, ← R.swapPageStatus]
      rfl
  · rw [if_neg hs]
    have P2 := P.scribble hr hv (fun a ha => clearPage_mem ha) (clearPage_rest q m1) rfl rfl rfl
    refine ⟨own', P2, ⟨N.new, N.kept, N.changed, N.booked.old, N.booked.fresh⟩, R.shmTable, fun off hoff => ?_, ?_⟩
    · rw [pageOf_of_present P2.present P2.target]
      unfold pageOf
      rw [if_neg hentry, if_neg hs]
      exact clearPage_zero hoff
    · unfold Released
      rw [if_neg hs]
      exact R.swapPageStatus

end fault

end RiscvKernel.Mm
