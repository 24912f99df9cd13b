import RiscvKernel.Sched.Give
import RiscvKernel.Mm.Effect

/-!
# Pages on their way through a pipe

A page that `sys_pipe_give_pages` takes out of a page table belongs to the ring of the pipe until
`sys_pipe_take_pages` maps it. `framesOf` reads the page frames of a ring in their order. Neither call
loses a page or changes what is in it.
-/

namespace RiscvKernel.Sched

open Lib Mm

/-! ## The ring -/

/-- `pa = pipe->page_buffer[pipe->tail]` and the lines after it. -/
def popPage (p : Pipe) : Pipe :=
  { p with
    tail := (p.tail + 1) % pipeBufferSize
    dataCount := p.dataCount - 1 }

/-- The page frames in the ring. -/
def framesOf (p : Pipe) : List ℕ := (items pipeBufferSize p.tail p.dataCount.toNat p.pageBuffer).map pa2kva

structure RingOk (p : Pipe) : Prop where
  tail : p.tail < pipeBufferSize
  count : 0 ≤ p.dataCount ∧ p.dataCount ≤ pipeBufferSize
  head : p.head = (p.tail + p.dataCount.toNat) % pipeBufferSize
  addr : ∀ pa ∈ items pipeBufferSize p.tail p.dataCount.toNat p.pageBuffer, pa < 2 ^ 64

section ring
variable {p : Pipe} {pa : ℕ}

theorem framesOf_length : (framesOf p).length = p.dataCount.toNat := by
  unfold framesOf
  rw [List.length_map, items_length]

theorem items_pushPage (R : RingOk p) (h : p.dataCount < pipeBufferSize) :
    items pipeBufferSize (pushPage pa p).tail (pushPage pa p).dataCount.toNat (pushPage pa p).pageBuffer =
      items pipeBufferSize p.tail p.dataCount.toNat p.pageBuffer ++ [pa] := by
  have h0 := R.count.1
  have hcount : (p.dataCount + 1).toNat = p.dataCount.toNat + 1 := by omega
  unfold pushPage
  dsimp only
  rw [hcount, R.head, items_push (by omega)]

theorem items_popPage (R : RingOk p) (h : p.dataCount ≠ 0) :
    items pipeBufferSize p.tail p.dataCount.toNat p.pageBuffer =
      p.pageBuffer p.tail :: items pipeBufferSize (popPage p).tail (popPage p).dataCount.toNat (popPage p).pageBuffer := by
  have h0 := R.count.1
  have hcount : p.dataCount.toNat = (p.dataCount - 1).toNat + 1 := by omega
  unfold popPage
  dsimp only
  rw [hcount, items_pop R.tail]

theorem RingOk.push (R : RingOk p) (h : p.dataCount < pipeBufferSize) (hpa : pa < 2 ^ 64) : RingOk (pushPage pa p) := by
  have h0 := R.count.1
  refine ⟨R.tail, ⟨by show 0 ≤ p.dataCount + 1; omega, by show p.dataCount + 1 ≤ _; omega⟩, ?_, ?_⟩
  · show (p.head + 1) % pipeBufferSize = (p.tail + (p.dataCount + 1).toNat) % pipeBufferSize
    rw [R.head, Int.toNat_add h0 Int.one_nonneg, Nat.mod_add_mod]
    rfl
  · rw [items_pushPage R h]
    intro a ha
    rcases List.mem_append.1 ha with ha | ha
    · exact R.addr a ha
    · rwa [List.mem_singleton.1 ha]

theorem RingOk.pop (R : RingOk p) (h : p.dataCount ≠ 0) : RingOk (popPage p) := by
  obtain ⟨h0, h1⟩ := R.count
  have hn : p.dataCount.toNat = 1 + (p.dataCount - 1).toNat := by omega
  refine ⟨Nat.mod_lt _ (by decide), ⟨by show 0 ≤ p.dataCount - 1; omega, by show p.dataCount - 1 ≤ _; omega⟩, ?_, ?_⟩
  · show p.head = ((p.tail + 1) % pipeBufferSize + (p.dataCount - 1).toNat) % pipeBufferSize
    rw [R.head, Nat.mod_add_mod, hn, Nat.add_assoc]
  · intro a ha
    refine R.addr a ?_
    rw [items_popPage R h]
    exact List.mem_cons_of_mem _ ha

/-- The page that comes out of the ring. -/
theorem RingOk.first (R : RingOk p) (h : p.dataCount ≠ 0) : p.pageBuffer p.tail < 2 ^ 64 := by
  refine R.addr _ ?_
  rw [items_popPage R h]
  exact List.mem_cons_self

/-- The new page is the last one. -/
theorem framesOf_push (R : RingOk p) (h : p.dataCount < pipeBufferSize) :
    framesOf (pushPage pa p) = framesOf p ++ [pa2kva pa] := by
  unfold framesOf
  rw [items_pushPage R h, List.map_append, List.map_singleton]

/-- The first page is the one at `tail`. -/
theorem framesOf_pop (R : RingOk p) (h : p.dataCount ≠ 0) :
    framesOf p = pa2kva (p.pageBuffer p.tail) :: framesOf (popPage p) := by
  unfold framesOf
  rw [items_popPage R h, List.map_cons]

end ring

/-! ## Out of a page table -/

section pages
variable {m m' : Memory} {own own' : ℕ → Owner} {r va v p q i : ℕ}

/-- A page that has been taken out of a page table: the kernel has it, with its contents. -/
structure Unmapped (r v q : ℕ) (m : Memory) (own : ℕ → Owner) (m' : Memory) (own' : ℕ → Owner) : Prop where
  space : SpaceOk m' own'
  frame : Frame {.data r v} m own m' own'
  untouched : Untouched {.data r v} m own m'
  owner : own' q = .kernel
  keep : ∀ p, p ≠ q → own' p = own p
  was : own q = .data r v ∨ ¬ (own q).Used ∧ ¬ Present (entry m r v)
  empty : entry m' r v = 0
  contents : ∀ off < 4096, m'.mem (q + off) = pageOf m r v off
  booked : Booked m own m' own'
  sd : m'.sd = m.sd
  start : m'.swapStartSec = m.swapStartSec
  slots : ∀ s, m'.swapPageStatus s = true →
    m.swapPageStatus s = true ∧ (Swapped (entry m r v) → swapIdOf (entry m r v) ≠ s)
  shm : m'.shmTable = m.shmTable

/-- **A page in memory** is taken out. -/
theorem unmapped_of_present {pte : ℕ} (Y : Tidy m own) (hr : own r = .root) (hv : v < userPages)
    (ha : getPte (v * 4096) r m = some pte) (hp : Present (entry m r v)) (hs : ¬ Shared (entry m r v))
    (h : removeFromActiveList (target (entry m r v)) m = some m') :
    Unmapped r v (target (entry m r v)) m own (writePte pte 0 m')
      (Function.update own (target (entry m r v)) .kernel) := by
  have S := Y.space
  have hq : own (target (entry m r v)) = .data r v :=
    (S.target_held hr hv hp).elim And.left fun ⟨_, _, h⟩ => absurd h hs
  obtain ⟨_, _, E1, -⟩ := (Y.untrack h).effect
  have S1 := E1.space
  obtain ⟨⟨pages, n, c, hm'⟩, -, hgone⟩ := removeFromActiveList_spec S.active h
  have hmem : m'.mem = m.mem := by rw [hm']
  have hentry : entry m' r v = entry m r v := entry_mem hmem r v
  -- no entry of the list has the page
  have hunlisted : Unlisted m' own r v := fun j hj hvj hl => by
    refine (hgone j hj hvj).2 ?_
    rw [← hl.kva, hentry]
  obtain ⟨S2, E2⟩ : SpaceOk _ (Function.update own (target (entry m r v)) .kernel) ∧ _ := S1.setEntry hr hv
    ((getPte_mem hmem _ _).trans ha) (by norm_num) (Turn.one (Or.inr hq) (Or.inl rfl))
    (leafOk_of_not_present not_present_zero) hunlisted (by rw [hentry]; exact hs) not_shared_zero not_swapped_zero
  have U : Untouched ∅ m own (writePte pte 0 m') := fun x hx hX a ha => by
    rw [E2.untouched x hx hX a ha, hmem]
  refine ⟨S2, (frame_of_mem _ own hmem).trans E2.frame, U.mono (Set.empty_subset _), Function.update_self _ _ _,
    fun x hx => Function.update_of_ne hx _ _, Or.inl hq, E2.entry, fun off hoff => ?_, Booked.same (fun x hx => ?_) ?_, ?_, ?_,
    fun s hs' => ⟨?_, fun h => absurd hp h.1⟩, ?_⟩
  · rw [U _ (by rw [hq]; trivial) id _ ⟨by omega, by omega⟩, pageOf_of_present hp rfl]
  · by_cases hxq : x = target (entry m r v)
    · rw [hxq, Function.update_self]
      exact nofun
    · rwa [Function.update_of_ne hxq]
  · show m'.kernMemCurr = _
    rw [hm']
  · show m'.sd = _
    rw [hm']
  · show m'.swapStartSec = _
    rw [hm']
  · change m'.swapPageStatus s = true at hs'
    rwa [hm'] at hs'
  · show m'.shmTable = _
    rw [hm']

/-- **A page in the swap area** is taken out. -/
theorem unmapped_of_swapped {pte : ℕ} (Y : Tidy m own) (hr : own r = .root) (hv : v < userPages)
    (ha : getPte (v * 4096) r m = some pte) (hs : Swapped (entry m r v)) (hroom : m.kernMemCurr + 4096 ≤ 2 ^ 64) :
    Unmapped r v (allocPage 1 m).1 m own
      (writePte pte 0 (swapIn (allocPage 1 m).1 (swapIdOf (entry m r v)) (allocPage 1 m).2))
      (Function.update own (allocPage 1 m).1 .kernel) := by
  have S := Y.space
  obtain ⟨S1, F1, U1, hu, hpage, -⟩ := S.alloc hroom
  have B := S.heap.booked hroom (o := .kernel) ⟨nofun, nofun⟩
  have R1 := allocPage_rest 1 m
  generalize (allocPage 1 m).1 = q at *
  generalize (allocPage 1 m).2 = m1 at *
  generalize hid : swapIdOf (entry m r v) = id at *
  have hq : Function.update own q .kernel q = .kernel := Function.update_self _ _ _
  have hmem : ∀ a, ¬ InPage q a → (swapRead q id m1).mem a = m1.mem a := fun a ha => by
    refine blit_out ?_
    unfold InPage at ha
    unfold sectorNumsPerPage sectorSize
    omega
  -- the contents come from the swap area
  obtain ⟨S2, F2⟩ : SpaceOk (swapRead q id m1) _ ∧ _ := S1.scribble (by rw [hq]; exact ⟨nofun, nofun⟩) (by rw [hq]; exact nofun) hmem
    ⟨rfl, rfl, rfl, rfl, rfl, rfl, rfl⟩ rfl rfl rfl
  have U2 : Untouched ∅ m1 (Function.update own q .kernel) (swapRead q id m1) :=
    untouched_of_page S1.heap.aligned (by rw [hq]; exact nofun) (fun h => absurd h (by rw [hq]; exact nofun)) hmem
  have F12 := F1.trans F2
  have hentry := (F12.entry hr hv (fun h => h)).eq_of_not_present hs.1
  obtain ⟨S3, E3⟩ : SpaceOk _ (Function.update own q .kernel) ∧ _ := S2.setEntry ((F12.root r).2 hr) hv
    (F12.pte hr hv (fun h => h) ha) (by norm_num) (Turn.refl _ r v) (leafOk_of_not_present not_present_zero)
    (unlisted_of_not_present (by rw [hentry]; exact hs.1)) (by rw [hentry]; exact fun h => hs.1 h.1) not_shared_zero
    not_swapped_zero
  have F := (F12.mono (Set.empty_subset _)).trans E3.frame
  have U := (U1.trans F1 U2).trans F12 E3.untouched
  have hempty := E3.entry
  have hcontents : ∀ off < 4096, (writePte pte 0 (swapRead q id m1)).mem (q + off) = pageOf m r v off := fun off hoff => by
    obtain ⟨t, ht, rfl⟩ := S2.tables.slot ((F12.root r).2 hr) hv (F12.pte hr hv (fun h => h) ha)
    have htq : t ≠ q := by
      rintro rfl
      rw [hq] at ht
      cases ht
    rw [writePte_mem S2.heap.aligned (by rw [ht]; trivial) (Nat.mod_lt _ (by norm_num)) fun h => htq
      (inPage_unique (S2.heap.aligned t (by rw [ht]; exact nofun)) hpage.1 h ⟨by omega, by omega⟩)]
    refine (swapIn_mem hoff).trans ?_
    unfold pageOf
    rw [if_neg hs.1, if_pos hs, hid, R1.sd, swapOffset_of_start R1.swapStartSec]
  have R3 : (writePte pte 0 (swapRead q id m1)).sd = m1.sd ∧
      (writePte pte 0 (swapRead q id m1)).swapStartSec = m1.swapStartSec ∧
      (writePte pte 0 (swapRead q id m1)).swapPageStatus = m1.swapPageStatus ∧
      (writePte pte 0 (swapRead q id m1)).kernMemCurr = m1.kernMemCurr ∧
      (writePte pte 0 (swapRead q id m1)).shmTable = m1.shmTable := ⟨rfl, rfl, rfl, rfl, rfl⟩
  have hfin : writePte pte 0 (swapIn q id m1) = { writePte pte 0 (swapRead q id m1) with
    swapPageStatus := Function.update m1.swapPageStatus id false } := rfl
  rw [hfin]
  clear hfin E3
  generalize writePte pte 0 (swapRead q id m1) = m3 at *
  obtain ⟨hsd, hstart, hstatus, hcurr, hshm⟩ := R3
  -- no other page has the slot
  have W : SwapOk { m3 with swapPageStatus := Function.update m1.swapPageStatus id false } (Function.update own q .kernel) := by
    refine S3.swap.release (fun {x w} hx hw hsw => ?_) rfl (by rw [hstatus])
    rw [← hid]
    exact S.swap.alone F hr hv hs (by rw [hempty]; exact not_swapped_zero) hx hw hsw
  refine ⟨S3.fields rfl rfl rfl rfl rfl (S3.active.of_mem rfl rfl rfl S3.active.clock) W,
    F.trans (frame_of_mem _ _ rfl), fun x hx hX a ha => U x hx (fun h => h) a ha, hq, fun x hx => Function.update_of_ne hx _ _,
    Or.inr ⟨hu, hs.1⟩, (entry_mem rfl r v).trans hempty, hcontents, ⟨B.old, fun x h1 h2 h3 => B.fresh x h1 h2 (hcurr ▸ h3)⟩,
    hsd.trans R1.sd, hstart.trans R1.swapStartSec, fun s hs' => ?_, hshm.trans R1.shmTable⟩
  rw [hid]
  change Function.update m1.swapPageStatus id false s = true at hs'
  have hne : id ≠ s := by
    rintro rfl
    rw [Function.update_self] at hs'
    cases hs'
  rw [Function.update_of_ne hne.symm, R1.swapPageStatus] at hs'
  exact ⟨hs', fun _ => hne⟩

/-- **unmapPage** of a page that can be given. -/
theorem unmapPage_unmapped (Y : Tidy m own) (hr : own r = .root) (hv : vpn va < userPages) (hg : Givable m r (vpn va))
    (hroom : m.kernMemCurr + 4096 ≤ 2 ^ 64) :
    ∃ q m' own', unmapPage va r m = some (some (kva2pa q), m') ∧ Unmapped r (vpn va) q m own m' own' := by
  rcases unmapPage_cases va r m with ⟨h, -⟩ | ⟨pte, ha, he, ⟨hp, hs, heq⟩ | ⟨hs, heq⟩⟩
  · exact absurd hg h
  · rw [getPte_vpn] at ha
    rw [← he] at hp hs heq
    obtain ⟨m1, h1⟩ := Y.untrack_some (target (entry m r (vpn va)))
    have U := unmapped_of_present Y hr hv ha hp hs h1
    unfold target at h1
    rw [heq, h1, Option.map_some, ← kva2pa_target]
    exact ⟨_, _, _, rfl, U⟩
  · rw [getPte_vpn] at ha
    rw [← he] at hs heq
    exact ⟨_, _, _, heq, unmapped_of_swapped Y hr hv ha hs hroom⟩

/-- What giving the frame `q` of page number `v` to the pipe `i` does. -/
structure Given (r v q i : ℕ) (m : Memory) (own : ℕ → Owner) (m' : Memory) (own' : ℕ → Owner) : Prop where
  effect : Effect {(r, v)} {q} m own m' own'
  root : ∀ x, own' x = .root ↔ own x = .root
  pipe : ∀ p, p ≠ q → ∀ j, own' p = .pipe j ↔ own p = .pipe j
  owner : own' q = .pipe i
  was : own q = .data r v ∨ ¬ (own q).Used
  shm : m'.shmTable = m.shmTable
  cell : cell m' r v = .none
  contents : pageAt m' q = fun off : Fin 4096 => pageOf m r v off

/-- **The page goes into a pipe.** -/
theorem Unmapped.give (Y : Tidy m own) (U : Unmapped r v q m own m' own') (i : ℕ) :
    Given r v q i m own m' (Function.update own' q (.pipe i)) := by
  have hother {x : ℕ} (hx : x ≠ q) : Function.update own' q (.pipe i) x = own x :=
    (Function.update_of_ne hx _ _).trans (U.keep x hx)
  have hself : Function.update own' q (.pipe i) q = .pipe i := Function.update_self _ _ _
  have hnot {o : Owner} (ho : o.Used) (hne : o ≠ .data r v) : own q ≠ o := by
    rintro rfl
    exact U.was.elim hne fun h => h.1 ho
  -- no other frame is at the page number
  have honly {x : ℕ} (hx : own x = .data r v) : x = q := by
    have ht := (Y.data hx).2.2.2.2
    rcases U.was with h | ⟨-, h⟩
    · rw [← ht, (Y.data h).2.2.2.2]
    · exact absurd (Y.present_of_data hx) h
  have hroot (x : ℕ) : Function.update own' q (.pipe i) x = .root ↔ own x = .root := by
    by_cases hx : x = q
    · rw [hx, hself]
      exact iff_of_false nofun (hnot ⟨nofun, nofun⟩ nofun)
    · rw [hother hx]
  have hz {x w : ℕ} (h : (x, w) ∉ ({(r, v)} : Set (ℕ × ℕ))) : Owner.data x w ∉ ({.data r v} : Set Owner) :=
    fun hx => h (by cases hx; rfl)
  refine ⟨⟨(U.space.toPipe U.owner i).1, fun x hx _ => hother hx, fun x hx hxq a ha => U.untouched x hx (fun h => hxq (honly h)) a ha,
    fun hx _ hw h => U.frame.entry hx hw (hz h), fun {x w o} hx _ hw h ho => ?_,
    fun {x w} h h' => absurd ((hroot x).1 h') h, fun {x w p} h h' => absurd ((hroot x).2 h) h', fun {x y w} ho hin => ?_,
    fun x h => ?_, U.booked.trans (Booked.same (fun x h => ?_) rfl), fun s hs => Or.inl ⟨(U.slots s hs).1, fun x w hx h _ hsw => ?_⟩⟩,
    hroot, fun x hx j => by rw [hother hx], hself, U.was.imp_right And.left, U.shm,
    cell_none (not_filled U.empty), funext fun off => U.contents off off.isLt⟩
  · exact pageOf_frame Y.space U.frame U.untouched hx hw (hz h) (fun _ => nofun) U.start (fun _ _ _ => by rw [U.sd]) ho
  · by_cases hx : x = q
    · rw [hx, hself] at ho
      cases ho
    · rw [hother hx] at ho
      rcases hin with hin | hin
      · exact absurd hin hx
      · cases hin
        exact absurd (honly ho) hx
  · by_cases hx : x = q
    · rw [hx, hself]
      exact nofun
    · rwa [hother hx]
  · by_cases hx : x = q
    · rw [hx, hself]
      exact nofun
    · rwa [Function.update_of_ne hx]
  · rcases h with h | h
    · exact absurd ((hroot x).2 hx) h
    · cases h
      exact (U.slots s hs).2 hsw

/-! ## Into a page table -/

theorem kva2pa_pa2kva {pa : ℕ} (h : pa < 2 ^ 64) : kva2pa (pa2kva pa) = pa := by
  unfold kva2pa pa2kva kvaPaOffset
  omega

/-- **The kernel maps the first page of a pipe.** -/
theorem taken (Y : Tidy m own) (hr : own r = .root) (hv : vpn va < userPages) (hq : own q = .pipe i)
    (hempty : ¬ Filled m r (vpn va)) (hroom : m.kernMemCurr + 2 * 4096 ≤ 2 ^ 64) :
    ∃ own', Placed r (vpn va) q (pageAt m q) m own (mapPage va (kva2pa q) r userFlags m) own' ∧
      Unlisted (mapPage va (kva2pa q) r userFlags m) own' r (vpn va) := by
  obtain ⟨S1, F1⟩ := Y.space.ofPipe hq
  have hqr : r ≠ q := by
    rintro rfl
    rw [hr] at hq
    cases hq
  have hr1 : Function.update own q .kernel r = .root := (Function.update_of_ne hqr _ _).trans hr
  have hself : Function.update own q Owner.kernel q = .kernel := Function.update_self _ _ _
  obtain ⟨own', S', ho, M, W⟩ := S1.mapPage_made hr1 hv hself
    (show mapFlags userFlags < 1024 by decide) (by decide)
    (fun h => hempty (Or.inl h)) hroom
  have htarget : target (entry (mapPage va (kva2pa q) r userFlags m) r (vpn va)) = q := by
    rw [M.entry]
    exact target_mkEntry (Y.space.heap.isPage (by rw [hq]; exact nofun)) (by decide)
  have hpresent : Present (entry (mapPage va (kva2pa q) r userFlags m) r (vpn va)) := by
    rw [M.entry]
    exact present_mapped
  have hcurr := M.curr
  have hother {x : ℕ} (hx : x ≠ q) : Function.update own q .kernel x = own x := Function.update_of_ne hx _ _
  refine ⟨own', Y.placed S1 (fun x hx => hother hx) (Or.inr ⟨i, hq⟩) (by rw [hself]; exact id)
    ⟨S', M.frame, M.untouched, ho, hpresent, htarget, M.rest.sd, M.rest.swapStartSec, by omega⟩ hr hv
    (fun h => hempty (Or.inl h)) (fun x hx hu => ?_) (fun x hx hne => ?_) ((Booked.same (fun x h => ?_) rfl).trans W.booked)
    M.rest.shmTable (fun s hs => ⟨M.rest.swapPageStatus ▸ hs, fun h => absurd (Or.inr h) hempty⟩) fun off => ?_,
    fun j hj hv hl => ?_⟩
  · rw [W.kept x hx (by rw [hother hx]; exact hu), hother hx]
  · exact W.changed x hx (by rw [hother hx]; exact hne)
  · by_cases hx : x = q
    · rw [hx, hself]
      exact nofun
    · rwa [hother hx]
  · rw [pageOf_of_present hpresent htarget]
    exact M.contents _ ⟨by omega, by have := off.isLt; omega⟩
  · -- the pages in the list are no pages of pipes
    have hkva := hl.kva
    rw [htarget, M.rest.activePages] at hkva
    rw [M.rest.activePages] at hv
    obtain ⟨x, w, hl'⟩ := Y.space.active.listed j hj hv
    have ho' := hl'.owner
    rw [← hkva, hq] at ho'
    cases ho'

end pages

end RiscvKernel.Sched
