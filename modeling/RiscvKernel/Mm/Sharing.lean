import RiscvKernel.Mm.Root
import RiscvKernel.Mm.Calls

/-!
# Attaching and detaching shared pages

What `shm_page_get` and `shm_page_dt` do to address spaces that are in order, where the place of the slot in
the address space is free or has the page of the slot. A slot goes through four steps: it gets a page, an
address space attaches it, an address space detaches it, and the slot without users gives its page back.
-/

namespace RiscvKernel.Mm

open Lib

/-! ## Writes that commute -/

section commute
variable {m : Memory} {t : ℕ → Shm}

theorem allocPage_shmTable (n : ℕ) (t : ℕ → Shm) (m : Memory) :
    allocPage n { m with shmTable := t } = ((allocPage n m).1, { (allocPage n m).2 with shmTable := t }) := by
  unfold allocPage
  dsimp only
  split
  · rfl
  · rfl

theorem readPte_shmTable (a : ℕ) (t : ℕ → Shm) (m : Memory) : readPte { m with shmTable := t } a = readPte m a := rfl

theorem writePte_shmTable (a v : ℕ) (t : ℕ → Shm) (m : Memory) :
    writePte a v { m with shmTable := t } = { writePte a v m with shmTable := t } := rfl

theorem clearPage_shmTable (p : ℕ) (t : ℕ → Shm) (m : Memory) :
    clearPage p { m with shmTable := t } = { clearPage p m with shmTable := t } := rfl

theorem ensureTable_shmTable (a : ℕ) (t : ℕ → Shm) (m : Memory) :
    ensureTable a { m with shmTable := t } = { ensureTable a m with shmTable := t } := by
  unfold ensureTable
  rw [readPte_shmTable, allocPage_shmTable]
  generalize allocPage 1 m = x
  obtain ⟨q, m1⟩ := x
  dsimp only
  split
  · simp only [readPte_shmTable, writePte_shmTable, clearPage_shmTable]
  · rfl

/-- `map_page` does not look at the table of shared pages. -/
theorem mapPage_shmTable (va pa r flags : ℕ) (t : ℕ → Shm) (m : Memory) :
    mapPage va pa r flags { m with shmTable := t } = { mapPage va pa r flags m with shmTable := t } := by
  unfold mapPage
  simp only [ensureTable_shmTable, readPte_shmTable, writePte_shmTable]

theorem putLe_comm {d : Mem} {a b v w k l : ℕ} (h : a + k ≤ b ∨ b + l ≤ a) :
    putLe (putLe d a k v) b l w = putLe (putLe d b l w) a k v := by
  funext i
  unfold putLe
  split_ifs
  · omega
  · rfl
  · rfl
  · rfl

/-- The link of a free page and an entry of a table do not overlap. -/
theorem writePte_freePage {p a v : ℕ} (h : p + 8 ≤ a ∨ a + 8 ≤ p) :
    writePte a v (freePage p m) = freePage p (writePte a v m) := by
  unfold freePage
  split
  · rfl
  · unfold writePte
    simp only [putLe_comm h]

end commute

/-! ## Slots -/

section slots
variable {m m' : Memory} {own own' : ℕ → Owner} {r i p q a : ℕ}

theorem entry_table (t : ℕ → Shm) (m : Memory) (r v : ℕ) : entry { m with shmTable := t } r v = entry m r v :=
  entry_mem rfl r v

/-- The address of a slot. -/
theorem shmVpn_va (hi : i < shmMaxNum) : vpn (shmVaBase + i * 4096) = shmVpn i := by
  unfold shmMaxNum at hi
  unfold vpn shmVpn shmVaBase
  omega

theorem shmVpn_inj {j : ℕ} (h : shmVpn j = shmVpn i) : j = i := by
  unfold shmVpn at h
  omega

/-- A slot that is not valid has no users. -/
theorem ShmOk.no_user (W : ShmOk m own) (hr : own r = .root) (hi : i < shmMaxNum) (h : ¬ (m.shmTable i).valid) :
    ¬ Shared (entry m r (shmVpn i)) := by
  intro hs
  obtain ⟨j, hj, ho⟩ := W.place hr (shmVpn_lt hi) hs
  obtain rfl := shmVpn_inj hj
  exact h (W.owned _ _ ho).2.1

/-- The page of a shared entry is the one of its slot. -/
theorem ShmOk.target_own (W : ShmOk m own) (hr : own r = .root) (hi : i < shmMaxNum) (h : Shared (entry m r (shmVpn i))) :
    own (target (entry m r (shmVpn i))) = .shm i := by
  obtain ⟨j, hj, ho⟩ := W.place hr (shmVpn_lt hi) h
  obtain rfl := shmVpn_inj hj
  exact ho

/-- A slot gets a page of the kernel. It has no users yet. -/
def giveSlot (i : ℕ) (key : ℤ) (q : ℕ) (m : Memory) : Memory :=
  { m with
    shmTable := Function.update m.shmTable i ⟨key, (m.shmTable i).va, kva2pa q, 0, true⟩ }

theorem giveSlot_slot (i : ℕ) (key : ℤ) (q : ℕ) (m : Memory) :
    (giveSlot i key q m).shmTable i = ⟨key, (m.shmTable i).va, kva2pa q, 0, true⟩ := Function.update_self _ _ _

theorem SpaceOk.giveSlot {key : ℤ} (S : SpaceOk m own) (hi : i < shmMaxNum) (hfree : ¬ (m.shmTable i).valid)
    (hq : own q = .kernel) : SpaceOk (Mm.giveSlot i key q m) (Function.update own q (.shm i)) := by
  have hpage : IsPage q := S.heap.isPage (by rw [hq]; exact nofun)
  have hne {p : ℕ} {o : Owner} (ho : o ≠ .kernel) (h : own p = o) : Function.update own q (.shm i) p = o :=
    (Function.update_of_ne (fun e => ho (by rw [← h, e, hq])) _ _).trans h
  have hback {p : ℕ} {o : Owner} (ho : o ≠ .shm i) (h : Function.update own q (.shm i) p = o) : own p = o := by
    by_cases hpq : p = q
    · rw [hpq, Function.update_self] at h
      exact absurd h.symm ho
    · rwa [Function.update_of_ne hpq] at h
  have hself := giveSlot_slot i key q m
  have hother {j : ℕ} (hj : j ≠ i) : (Mm.giveSlot i key q m).shmTable j = m.shmTable j := Function.update_of_ne hj _ _
  have T : TablesOk (Mm.giveSlot i key q m) (Function.update own q (.shm i)) := by
    refine S.tables.congr S.heap.aligned (fun x hx => ?_) fun _ _ _ _ => rfl
    rw [update_ne hx, hq, Function.update_self]
    refine ⟨id, id, fun t r' k j ht hj hpr htq => ?_⟩
    have hleaf := S.tables.leaf ht hj
    by_cases hs : getAttribute (readPte m (t + 8 * j)) pageShm = 0
    · have := hleaf.data hpr hs
      rw [htq, hq] at this
      cases this
    · obtain ⟨l, hl⟩ := hleaf.shm hpr hs
      rw [htq, hq] at hl
      cases hl
  have W : ShmOk (Mm.giveSlot i key q m) (Function.update own q (.shm i)) := by
    refine ⟨fun j hj => ?_, fun j hj hv => ?_, fun p j hp => ?_, fun {x v} hx hv hs => ?_, fun j hj hv => ?_⟩
    · by_cases hji : j = i
      · rw [hji, hself]
        exact S.shm.va i hi
      · rw [hother hji]
        exact S.shm.va j hj
    · by_cases hji : j = i
      · rw [hji, hself]
        exact ⟨q, Function.update_self _ _ _, rfl⟩
      · rw [hother hji] at hv ⊢
        obtain ⟨p, hp, hpa⟩ := S.shm.page j hj hv
        exact ⟨p, hne nofun hp, hpa⟩
    · by_cases hpq : p = q
      · rw [hpq, Function.update_self] at hp
        cases hp
        rw [hself, hpq]
        exact ⟨hi, rfl, pa2kva_kva2pa hpage⟩
      · rw [Function.update_of_ne hpq] at hp
        have hji : j ≠ i := by
          rintro rfl
          exact hfree (S.shm.owned p j hp).2.1
        rw [hother hji]
        exact S.shm.owned p j hp
    · obtain ⟨j, hvj, ho⟩ := S.shm.place (hback nofun hx) hv hs
      exact ⟨j, hvj, hne nofun ho⟩
    · by_cases hji : j = i
      · subst hji
        rw [hself]
        refine ⟨[], List.nodup_nil, fun x => ?_, rfl⟩
        refine iff_of_false List.not_mem_nil fun ⟨hx, hs⟩ => ?_
        exact S.shm.no_user (hback nofun hx) hj hfree hs
      · rw [hother hji] at hv ⊢
        obtain ⟨rs, hnd, hrs, hc⟩ := S.shm.count j hj hv
        exact ⟨rs, hnd, fun x => (hrs x).trans (and_congr_left fun _ => ⟨hne nofun, hback nofun⟩), hc⟩
  refine ⟨?_, T, ⟨fun j hj hv => ?_, S.active.first, S.active.count, S.active.clock⟩,
    ⟨fun hr hv => S.swap.taken (hback nofun hr) hv, fun hr hv hs hr' => S.swap.distinct (hback nofun hr) hv hs (hback nofun hr')⟩,
    W, S.kernel⟩
  · exact (S.heap.retag (o := .shm i) (by rw [hq]; exact ⟨nofun, nofun⟩) ⟨nofun, nofun⟩).congr (fun _ _ _ _ => rfl) rfl rfl rfl
  · obtain ⟨x, v, h⟩ := S.active.listed j hj hv
    exact ⟨x, v, hne nofun h.root, h.user, h.pte, h.present, h.kva, hne nofun h.owner⟩

/-! ## Attaching -/

/-- One more address space has the page of the slot. -/
def attach (i r : ℕ) (m : Memory) : Memory :=
  let e := m.shmTable i
  let m := shmMapPage e.va e.pa r m
  { m with shmTable := Function.update m.shmTable i { e with refCount := e.refCount + 1 } }

/-- What attaching a slot does: new tables of `r`, and the entry of the slot. -/
structure Attached (m : Memory) (own : ℕ → Owner) (m' : Memory) (own' : ℕ → Owner) (r i : ℕ) : Prop where
  space : SpaceOk m' own'
  frame : Frame {.data r (shmVpn i)} m own m' own'
  untouched : Untouched {.data r (shmVpn i)} m own m'
  shared : Shared (entry m' r (shmVpn i))
  kept : ∀ p, (own p).Used → own' p = own p
  changed : ∀ p, own' p ≠ own p → (own' p).Below r
  booked : Booked m own m' own'
  table : m'.shmTable = Function.update m.shmTable i { m.shmTable i with refCount := (m.shmTable i).refCount + 1 }
  sd : m'.sd = m.sd
  start : m'.swapStartSec = m.swapStartSec
  status : m'.swapPageStatus = m.swapPageStatus
  curr : m'.kernMemCurr ≤ m.kernMemCurr + 2 * 4096

/-- The slot counts one more. -/
theorem ShmOk.attach (W : ShmOk m own) (F : Frame {.data r (shmVpn i)} m own m' own') (hr : own r = .root)
    (hi : i < shmMaxNum) (hold : ¬ Shared (entry m r (shmVpn i))) (hnew : Shared (entry m' r (shmVpn i)))
    (htarget : own' (target (entry m' r (shmVpn i))) = .shm i)
    (htable : m'.shmTable = Function.update m.shmTable i { m.shmTable i with refCount := (m.shmTable i).refCount + 1 }) :
    ShmOk m' own' := by
  have hX {x v : ℕ} (h : ¬ (x = r ∧ v = shmVpn i)) : Owner.data x v ∉ ({.data r (shmVpn i)} : Set Owner) := fun hx => by
    cases hx
    exact h ⟨rfl, rfl⟩
  have hshm {p j : ℕ} (hp : own p = .shm j) : own' p = .shm j := by
    rw [← hp]
    exact F.owner p (by rw [hp]; trivial) (by rw [hp]; exact nofun)
  have hslot (j : ℕ) : (m'.shmTable j).va = (m.shmTable j).va ∧ (m'.shmTable j).pa = (m.shmTable j).pa ∧
      (m'.shmTable j).valid = (m.shmTable j).valid := by
    rw [htable]
    by_cases hji : j = i
    · rw [hji, Function.update_self]
      exact ⟨rfl, rfl, rfl⟩
    · rw [Function.update_of_ne hji]
      exact ⟨rfl, rfl, rfl⟩
  refine ⟨fun j hj => (hslot j).1.trans (W.va j hj), fun j hj hv => ?_, fun p j hp => ?_, fun {x v} hx hv hs => ?_,
    fun j hj hv => ?_⟩
  · obtain ⟨p, hp, hpa⟩ := W.page j hj ((hslot j).2.2 ▸ hv)
    exact ⟨p, hshm hp, (hslot j).2.1.trans hpa⟩
  · obtain ⟨h1, h2, h3⟩ := W.owned p j (F.shm p j hp)
    exact ⟨h1, (hslot j).2.2 ▸ h2, (congrArg pa2kva (hslot j).2.1).trans h3⟩
  · have hx := (F.root x).1 hx
    by_cases hat : x = r ∧ v = shmVpn i
    · obtain ⟨rfl, rfl⟩ := hat
      exact ⟨i, rfl, htarget⟩
    · have hlike := F.entry hx hv (hX hat)
      obtain ⟨j, hvj, ho⟩ := W.place hx hv (hlike.shared.1 hs)
      exact ⟨j, hvj, by rw [hlike.target]; exact hshm ho⟩
  · obtain ⟨rs, hnd, hrs, hc⟩ := W.count j hj ((hslot j).2.2 ▸ hv)
    by_cases hji : j = i
    · subst hji
      refine ⟨r :: rs, List.nodup_cons.2 ⟨fun h => hold ((hrs r).1 h).2, hnd⟩, fun x => ?_, ?_⟩
      · rw [List.mem_cons, hrs x, F.root x]
        by_cases hxr : x = r
        · subst hxr
          exact iff_of_true (Or.inl rfl) ⟨hr, hnew⟩
        · rw [or_iff_right hxr]
          exact and_congr_right fun hx => (F.entry hx (shmVpn_lt hj) (hX fun h => hxr h.1)).shared.symm
      · rw [htable, Function.update_self, List.length_cons, Nat.cast_add, Nat.cast_one]
        exact congrArg (· + 1) hc
    · refine ⟨rs, hnd, fun x => ?_, ?_⟩
      · rw [hrs x, F.root x]
        exact and_congr_right fun hx => (F.entry hx (shmVpn_lt hj) (hX fun h => hji (shmVpn_inj h.2))).shared.symm
      · rw [htable, Function.update_of_ne hji]
        exact hc

/-- **An address space attaches a slot** that has a page. -/
theorem SpaceOk.attach (S : SpaceOk m own) (hr : own r = .root) (hi : i < shmMaxNum) (hv : (m.shmTable i).valid)
    (hentry : ¬ Present (entry m r (shmVpn i))) (hroom : m.kernMemCurr + 2 * 4096 ≤ 2 ^ 64) :
    ∃ own', Attached m own (attach i r m) own' r i := by
  obtain ⟨q, hq, hpa⟩ := S.shm.page i hi hv
  have hpage : IsPage q := S.heap.isPage (by rw [hq]; exact nofun)
  have hvpn : vpn (m.shmTable i).va = shmVpn i := (congrArg vpn (S.shm.va i hi)).trans (shmVpn_va hi)
  obtain ⟨own', H, T, ho, M, N⟩ := Mm.mapPage_made S hr
    (show vpn (m.shmTable i).va < userPages by rw [hvpn]; exact shmVpn_lt hi)
    (show mapFlags (pageRead ||| pageWrite ||| pageExec ||| pageUser ||| pageShm) < 1024 by decide) hroom (.shm i) (Or.inr ⟨hq, i, rfl, by decide⟩)
  rw [hvpn, ← hpa] at M N
  rw [← hpa] at H T
  have hnew : Shared (entry (mapPage (m.shmTable i).va (m.shmTable i).pa r
      (pageRead ||| pageWrite ||| pageExec ||| pageUser ||| pageShm) m) r (shmVpn i)) := by
    rw [M.entry]
    refine ⟨present_mapped, ?_⟩
    rw [getAttribute_mkEntry (by decide) (by decide)]
    decide
  have htarget := (congrArg target M.entry).trans (target_mkEntry hpage (by decide))
  have hframe (X : Set Owner) {m1 m2 : Memory} {o1 o2 : ℕ → Owner} (F : Frame X m1 o1 m2 o2) {t : ℕ → Shm} :
      Frame X m1 o1 { m2 with shmTable := t } o2 := F.trans (frame_of_mem X o2 rfl)
  unfold Mm.attach shmMapPage
  dsimp only
  generalize mapPage _ _ _ _ m = m1 at *
  have hkept (p : ℕ) (hp : (own p).Used) : own' p = own p := by
    by_cases hpq : p = q
    · rw [hpq, ho, hq]
    · exact N.kept p hpq hp
  have hunlisted : ∀ x v, own x = .root → v < userPages → Owner.data x v ∈ ({.data r (shmVpn i)} : Set Owner) →
      x = r ∧ v = shmVpn i := fun x v _ _ hx => by
    cases hx
    exact ⟨rfl, rfl⟩
  have hrest := M.rest
  have F2 := hframe _ M.frame (t := Function.update m1.shmTable i
    { m.shmTable i with refCount := (m.shmTable i).refCount + 1 })
  rw [← entry_table (Function.update m1.shmTable i { m.shmTable i with refCount := (m.shmTable i).refCount + 1 }) m1]
    at hnew
  -- the entries are compared through `entry_table`, and the contents of pages byte by byte
  refine ⟨own', ⟨H.congr (fun _ _ _ _ => rfl) rfl rfl rfl, T.of_mem rfl, ?_, ?_, ?_, S.kernel_frame F2.low⟩, F2,
    fun p hp hx a ha => M.untouched p hp hx a ha, hnew, hkept, fun p hp => ?_, ⟨N.booked.old, N.booked.fresh⟩,
    by rw [hrest.shmTable], hrest.sd, hrest.swapStartSec, hrest.swapPageStatus, M.curr⟩
  · refine S.active.frame F2 hrest.activePages hrest.activePageCount hrest.clockHead fun x v hx hv h => ?_
    obtain ⟨rfl, rfl⟩ := hunlisted x v hx hv h
    exact unlisted_of_not_present hentry
  · refine S.swap.frame F2 hrest.swapPageStatus fun x v hx hv h hs => ?_
    obtain ⟨rfl, rfl⟩ := hunlisted x v hx hv h
    exact hs.1 hnew.1
  · refine S.shm.attach F2 hr hi (fun h => hentry h.1) hnew ?_ (by rw [hrest.shmTable])
    rw [entry_table, htarget, ho]
  · refine N.changed p (fun hpq => hp ?_) hp
    rw [hpq, ho, hq]

/-! ## Detaching -/

/-- The entry `a` of an address space is cleared, and the slot counts one less. -/
def detach (i a : ℕ) (m : Memory) : Memory :=
  { writePte a 0 m with
    shmTable := Function.update m.shmTable i { m.shmTable i with refCount := (m.shmTable i).refCount - 1 } }

theorem detach_slot (i a : ℕ) (m : Memory) :
    (detach i a m).shmTable i = { m.shmTable i with refCount := (m.shmTable i).refCount - 1 } := Function.update_self _ _ _

/-- The slot counts one less. -/
theorem ShmOk.detach (W : ShmOk m own) (F : Frame {.data r (shmVpn i)} m own m' own) (hr : own r = .root)
    (hi : i < shmMaxNum) (hold : Shared (entry m r (shmVpn i))) (hnew : ¬ Shared (entry m' r (shmVpn i)))
    (htable : m'.shmTable = Function.update m.shmTable i { m.shmTable i with refCount := (m.shmTable i).refCount - 1 }) :
    ShmOk m' own := by
  have hX {x v : ℕ} (h : ¬ (x = r ∧ v = shmVpn i)) : Owner.data x v ∉ ({.data r (shmVpn i)} : Set Owner) := fun hx => by
    cases hx
    exact h ⟨rfl, rfl⟩
  have hslot (j : ℕ) : (m'.shmTable j).va = (m.shmTable j).va ∧ (m'.shmTable j).pa = (m.shmTable j).pa ∧
      (m'.shmTable j).valid = (m.shmTable j).valid := by
    rw [htable]
    by_cases hji : j = i
    · rw [hji, Function.update_self]
      exact ⟨rfl, rfl, rfl⟩
    · rw [Function.update_of_ne hji]
      exact ⟨rfl, rfl, rfl⟩
  refine ⟨fun j hj => (hslot j).1.trans (W.va j hj), fun j hj hv => ?_, fun p j hp => ?_, fun {x v} hx hv hs => ?_,
    fun j hj hv => ?_⟩
  · obtain ⟨p, hp, hpa⟩ := W.page j hj ((hslot j).2.2 ▸ hv)
    exact ⟨p, hp, (hslot j).2.1.trans hpa⟩
  · obtain ⟨h1, h2, h3⟩ := W.owned p j hp
    exact ⟨h1, (hslot j).2.2 ▸ h2, (congrArg pa2kva (hslot j).2.1).trans h3⟩
  · by_cases hat : x = r ∧ v = shmVpn i
    · obtain ⟨rfl, rfl⟩ := hat
      exact absurd hs hnew
    · have hlike := F.entry hx hv (hX hat)
      obtain ⟨j, hvj, ho⟩ := W.place hx hv (hlike.shared.1 hs)
      exact ⟨j, hvj, by rw [hlike.target]; exact ho⟩
  · obtain ⟨rs, hnd, hrs, hc⟩ := W.count j hj ((hslot j).2.2 ▸ hv)
    by_cases hji : j = i
    · subst hji
      have hmem : r ∈ rs := (hrs r).2 ⟨hr, hold⟩
      have hpos := List.length_pos_of_mem hmem
      refine ⟨rs.erase r, hnd.erase r, fun x => ?_, ?_⟩
      · rw [hnd.mem_erase_iff, hrs x]
        by_cases hxr : x = r
        · rw [hxr]
          exact iff_of_false (fun h => h.1 rfl) fun h => hnew h.2
        · rw [and_iff_right hxr]
          exact and_congr_right fun hx => (F.entry hx (shmVpn_lt hj) (hX fun h => hxr h.1)).shared.symm
      · rw [htable, Function.update_self, List.length_erase_of_mem hmem]
        show (m.shmTable j).refCount - 1 = _
        omega
    · refine ⟨rs, hnd, fun x => ?_, ?_⟩
      · rw [hrs x]
        exact and_congr_right fun hx => (F.entry hx (shmVpn_lt hj) (hX fun h => hji (shmVpn_inj h.2))).shared.symm
      · rw [htable, Function.update_of_ne hji]
        exact hc

/-- **An address space detaches a slot.** -/
theorem SpaceOk.detach (S : SpaceOk m own) (hr : own r = .root) (hi : i < shmMaxNum)
    (hs : Shared (entry m r (shmVpn i))) (ha : getPte (shmVpn i * 4096) r m = some a) :
    SpaceOk (detach i a m) own ∧ Frame {.data r (shmVpn i)} m own (Mm.detach i a m) own ∧
      Untouched ∅ m own (Mm.detach i a m) ∧ entry (Mm.detach i a m) r (shmVpn i) = 0 := by
  have ho := S.shm.target_own hr hi hs
  have E := S.entered hr (shmVpn_lt hi) ha (e := 0) (by norm_num) (Turn.refl own r _) (leafOk_of_not_present not_present_zero)
  have F : Frame {.data r (shmVpn i)} m own (Mm.detach i a m) own := E.frame.trans (frame_of_mem _ own rfl)
  have hentry : entry (Mm.detach i a m) r (shmVpn i) = 0 := (entry_table _ (writePte a 0 m) r (shmVpn i)).trans E.entry
  have hx {x v : ℕ} (h : Owner.data x v ∈ ({.data r (shmVpn i)} : Set Owner)) : x = r ∧ v = shmVpn i := by
    cases h
    exact ⟨rfl, rfl⟩
  refine ⟨⟨E.heap.congr (fun _ _ _ _ => rfl) rfl rfl rfl, E.tables.of_mem rfl, ?_, ?_, ?_, S.kernel_frame F.low⟩, F,
    fun p hp hX b hb => E.untouched p hp hX b hb, hentry⟩
  · refine S.active.frame F rfl rfl rfl fun x v _ _ h j _ _ hl => ?_
    obtain ⟨rfl, rfl⟩ := hx h
    have h1 := hl.owner
    rw [← hl.kva, ho] at h1
    cases h1
  · refine S.swap.frame F rfl fun x v _ _ h hsw => ?_
    obtain ⟨rfl, rfl⟩ := hx h
    rw [hentry] at hsw
    exact not_swapped_zero hsw
  · refine S.shm.detach F hr hi hs (fun h => ?_) rfl
    rw [hentry] at h
    exact not_shared_zero h

/-! ## Slots without users -/

/-- The slot is free again. -/
def dropSlot (i : ℕ) (m : Memory) : Memory :=
  { m with shmTable := Function.update m.shmTable i { m.shmTable i with valid := false } }

/-- **The page of a slot without users** goes back to the kernel. -/
theorem SpaceOk.dropSlot (S : SpaceOk m own) (hi : i < shmMaxNum) (hv : (m.shmTable i).valid) (hp : own p = .shm i)
    (hcount : (m.shmTable i).refCount = 0) : SpaceOk (dropSlot i m) (Function.update own p .kernel) ∧
      Frame {.shm i} m own (Mm.dropSlot i m) (Function.update own p .kernel) := by
  have hnone {x : ℕ} (hx : own x = .root) : ¬ Shared (entry m x (shmVpn i)) := fun hs => by
    obtain ⟨rs, -, hrs, hc⟩ := S.shm.count i hi hv
    have hpos := List.length_pos_of_mem ((hrs x).2 ⟨hx, hs⟩)
    omega
  have hunique {q : ℕ} (hq : own q = .shm i) : q = p := by
    rw [← (S.shm.owned q i hq).2.2, ← (S.shm.owned p i hp).2.2]
  have hne {q : ℕ} {o : Owner} (ho : o ≠ .shm i) (h : own q = o) : Function.update own p .kernel q = o :=
    (Function.update_of_ne (fun e => ho (by rw [← h, e, hp])) _ _).trans h
  have hback {q : ℕ} {o : Owner} (ho : o ≠ .kernel) (h : Function.update own p .kernel q = o) : own q = o := by
    by_cases hqp : q = p
    · rw [hqp, Function.update_self] at h
      exact absurd h.symm ho
    · rwa [Function.update_of_ne hqp] at h
  have hself : (Mm.dropSlot i m).shmTable i = { m.shmTable i with valid := false } := Function.update_self _ _ _
  have hother {j : ℕ} (hj : j ≠ i) : (Mm.dropSlot i m).shmTable j = m.shmTable j := Function.update_of_ne hj _ _
  -- a slot other than `i` is as before
  have hshm {q j : ℕ} (hq : Function.update own p .kernel q = .shm j) : j ≠ i ∧ own q = .shm j := by
    have h := hback (o := .shm j) nofun hq
    refine ⟨?_, h⟩
    rintro rfl
    rw [hunique h, Function.update_self] at hq
    cases hq
  have T : TablesOk (Mm.dropSlot i m) (Function.update own p .kernel) := by
    refine S.tables.congr S.heap.aligned (fun x hx => ?_) fun _ _ _ _ => rfl
    rw [update_ne hx, hp, Function.update_self]
    refine ⟨id, id, fun t r' k j ht hj hpr htq => ?_⟩
    have hleaf := S.tables.leaf ht hj
    have hlt := S.tables.tab_lt ht
    obtain ⟨-, -, -, hr, -⟩ := S.tables.path ht
    have he := S.tables.entry_tab ht hj
    by_cases hs : getAttribute (readPte m (t + 8 * j)) pageShm = 0
    · have := hleaf.data hpr hs
      rw [htq, hp] at this
      cases this
    · have hsh : Shared (entry m r' (512 * k + j)) := by
        rw [he]
        exact ⟨hpr, hs⟩
      obtain ⟨l, hl, ho⟩ := S.shm.place hr (by unfold userPages; omega) hsh
      rw [he, htq, hp] at ho
      cases ho
      rw [hl] at hsh
      exact hnone hr hsh
  have W : ShmOk (Mm.dropSlot i m) (Function.update own p .kernel) := by
    refine ⟨fun j hj => ?_, fun j hj hvj => ?_, fun q j hq => ?_, fun {x v} hx hv' hs => ?_, fun j hj hvj => ?_⟩
    · by_cases hji : j = i
      · rw [hji, hself]
        exact S.shm.va i hi
      · rw [hother hji]
        exact S.shm.va j hj
    · have hji : j ≠ i := by
        rintro rfl
        rw [hself] at hvj
        cases hvj
      rw [hother hji] at hvj ⊢
      obtain ⟨q, hq, hpa⟩ := S.shm.page j hj hvj
      exact ⟨q, hne (fun e => hji (by cases e; rfl)) hq, hpa⟩
    · obtain ⟨hji, h⟩ := hshm hq
      rw [hother hji]
      exact S.shm.owned q j h
    · have hx := hback (o := .root) nofun hx
      obtain ⟨j, hvj, ho⟩ := S.shm.place hx hv' hs
      have hji : j ≠ i := by
        rintro rfl
        rw [hvj] at hs
        exact hnone hx hs
      exact ⟨j, hvj, hne (fun e => hji (by cases e; rfl)) ho⟩
    · have hji : j ≠ i := by
        rintro rfl
        rw [hself] at hvj
        cases hvj
      rw [hother hji] at hvj ⊢
      obtain ⟨rs, hnd, hrs, hc⟩ := S.shm.count j hj hvj
      exact ⟨rs, hnd, fun x => (hrs x).trans (and_congr_left fun _ => ⟨hne nofun, hback nofun⟩), hc⟩
  have F : Frame {.shm i} m own (Mm.dropSlot i m) (Function.update own p .kernel) := by
    refine ⟨fun x => ⟨hback nofun, hne nofun⟩, fun q hq hX => ?_, fun q j hq => (hshm hq).2, fun _ _ _ => id,
      fun _ _ _ => Like.refl _, fun _ _ => rfl⟩
    exact Function.update_of_ne (fun e => hX (by rw [e, hp]; rfl)) _ _
  refine ⟨⟨?_, T, ?_, ?_, W, S.kernel⟩, F⟩
  · exact (S.heap.retag (o := .kernel) (by rw [hp]; exact ⟨nofun, nofun⟩) ⟨nofun, nofun⟩).congr (fun _ _ _ _ => rfl) rfl rfl rfl
  · exact S.active.frame F rfl rfl rfl fun _ _ _ _ h => by cases h
  · exact S.swap.frame F rfl fun _ _ _ _ h => by cases h

/-! ## The calls -/

/-- The slot that `shm_page_get` takes: the one with the key, otherwise the first free one. -/
def shmSlot (key : ℤ) (m : Memory) : Option ℕ :=
  (scan (fun i => if (m.shmTable i).valid ∧ (m.shmTable i).key = key then some i else none) 0 shmMaxNum).or
    (scan (fun i => if (m.shmTable i).valid then none else some i) 0 shmMaxNum)

theorem shmSlot_none {key : ℤ} (h : shmSlot key m = none) {i : ℕ} (hi : i < shmMaxNum) :
    (m.shmTable i).valid ∧ (m.shmTable i).key ≠ key := by
  obtain ⟨h1, h2⟩ := Option.or_eq_none_iff.1 h
  have h1 := scan_eq_none.1 h1 i (Nat.zero_le _) (by omega)
  have h2 := scan_eq_none.1 h2 i (Nat.zero_le _) (by omega)
  have hv : (m.shmTable i).valid := by
    by_contra hv
    rw [if_neg hv] at h2
    cases h2
  refine ⟨hv, fun hk => ?_⟩
  rw [if_pos ⟨hv, hk⟩] at h1
  cases h1

/-- What **shm_page_get** does: the process attaches the slot with the key, or a free slot that gets a page; nothing
happens when there is none. -/
theorem shmPageGet_cases (key : ℤ) (r : ℕ) (m : Memory) :
    (∃ i < shmMaxNum, shmSlot key m = some i ∧ (m.shmTable i).valid ∧ (m.shmTable i).key = key ∧
      shmPageGet key r m = ((m.shmTable i).va, attach i r m)) ∨
    (∀ i < shmMaxNum, (m.shmTable i).valid → (m.shmTable i).key ≠ key) ∧
      ((∃ i < shmMaxNum, shmSlot key m = some i ∧ ¬ (m.shmTable i).valid ∧ shmPageGet key r m =
          ((m.shmTable i).va, attach i r (giveSlot i key (allocPage 1 m).1 (allocPage 1 m).2))) ∨
        shmSlot key m = none ∧ shmPageGet key r m = (0, m)) := by
  unfold shmPageGet shmSlot
  cases hkey : scan (fun i => if (m.shmTable i).valid ∧ (m.shmTable i).key = key then some i else none) 0 shmMaxNum with
  | some i =>
    obtain ⟨j, -, hj, hif, -⟩ := scan_eq_some.1 hkey
    split_ifs at hif with h
    cases hif
    exact Or.inl ⟨i, by omega, rfl, h.1, h.2, rfl⟩
  | none =>
    have hno (i : ℕ) (hi : i < shmMaxNum) (hv : (m.shmTable i).valid) : (m.shmTable i).key ≠ key := fun hk => by
      have := scan_eq_none.1 hkey i (Nat.zero_le _) (by omega)
      rw [if_pos ⟨hv, hk⟩] at this
      cases this
    refine Or.inr ⟨hno, ?_⟩
    dsimp only
    cases hfree : scan (fun i => if (m.shmTable i).valid then none else some i) 0 shmMaxNum with
    | some i =>
      obtain ⟨j, -, hj, hif, -⟩ := scan_eq_some.1 hfree
      split_ifs at hif with h
      cases hif
      have htable := (allocPage_rest 1 m).shmTable
      refine Or.inl ⟨i, by omega, rfl, h, ?_⟩
      generalize allocPage 1 m = x at *
      obtain ⟨q, m1⟩ := x
      dsimp only at htable ⊢
      unfold attach giveSlot shmMapPage
      simp only [mapPage_shmTable, Function.update_self, Function.update_idem, htable]
      rfl
    | none => exact Or.inr ⟨rfl, rfl⟩

/-- **shm_page_dt** where no page is. -/
theorem shmPageDt_absent {addr : ℕ} (h : ¬ Present (entry m r (vpn addr))) : shmPageDt addr r m = m := by
  unfold shmPageDt
  cases ha : getPte addr r m with
  | none => rfl
  | some pte =>
    rw [entry_eq ha] at h
    exact if_pos (not_not.1 h)

/-- **shm_page_dt** of the page of a slot: the process detaches the slot, and the last one frees the page. -/
theorem shmPageDt_shared (S : SpaceOk m own) (hr : own r = .root) (hi : i < shmMaxNum)
    (hs : Shared (entry m r (shmVpn i))) (ha : getPte (shmVpn i * 4096) r m = some a) (hp : own p = .shm i) :
    shmPageDt (shmVaBase + i * 4096) r m =
      if (m.shmTable i).refCount = 1 then freePage p (dropSlot i (detach i a m)) else detach i a m := by
  obtain ⟨-, hvalid, hpa⟩ := S.shm.owned p i hp
  have hva (j : ℕ) (hj : j < shmMaxNum) : (m.shmTable j).va = shmVaBase + j * 4096 := S.shm.va j hj
  have hscan : scan (fun j => if (m.shmTable j).valid ∧ (m.shmTable j).va = shmVaBase + i * 4096 then some j else none) 0
      shmMaxNum = some i := by
    refine scan_eq_some.2 ⟨i, Nat.zero_le _, by omega, if_pos ⟨hvalid, hva i hi⟩, fun j _ hj => if_neg fun h => ?_⟩
    have h2 := h.2
    rw [hva j (by omega)] at h2
    omega
  have hpte : getPte (shmVaBase + i * 4096) r m = some a := by
    rw [getPte_vpn, shmVpn_va hi]
    exact ha
  have hpresent : ¬ getAttribute (readPte m a) pagePresent = 0 := by
    rw [← entry_slot (shmVpn_lt hi) ha]
    exact hs.1
  have hdisjoint : p + 8 ≤ a ∨ a + 8 ≤ p := by
    obtain ⟨t, ht, rfl⟩ := S.tables.slot hr (shmVpn_lt hi) ha
    have h1 := S.heap.aligned p (by rw [hp]; exact nofun)
    have h2 := S.heap.aligned t (by rw [ht]; exact nofun)
    have hne : t ≠ p := by
      rintro rfl
      rw [hp] at ht
      cases ht
    omega
  unfold shmPageDt
  rw [hpte]
  dsimp only
  rw [if_neg hpresent, hscan]
  dsimp only
  rw [hpa]
  by_cases hone : (m.shmTable i).refCount = 1
  · rw [if_pos hone, if_pos (by omega), writePte_freePage hdisjoint]
    unfold dropSlot detach
    simp only [Function.update_self, Function.update_idem, writePte_shmTable]
  · rw [if_neg hone, if_neg (by omega)]
    rfl

end slots

end RiscvKernel.Mm
