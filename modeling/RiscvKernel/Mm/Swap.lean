import RiscvKernel.Mm.Moves

/-!
# The list of active pages and the swap area

What `remove_from_active_list`, `swap_out` and `add_to_active_list` keep. `swap_out` leaves the entry of its
victim in the list, which describes no page then; the caller puts the new page there.
-/

namespace RiscvKernel.Mm

open Lib

section fields
variable {m m' : Memory} {own : ℕ → Owner} {r v : ℕ}

theorem readPte_mem (h : m'.mem = m.mem) (a : ℕ) : readPte m' a = readPte m a := by
  unfold readPte
  rw [h]

theorem getPte_mem (h : m'.mem = m.mem) (va r : ℕ) : getPte va r m' = getPte va r m := by
  unfold getPte
  simp only [readPte_mem h]

theorem entry_mem (h : m'.mem = m.mem) (r v : ℕ) : entry m' r v = entry m r v := by
  unfold entry
  simp only [getPte_mem h, readPte_mem h]

theorem Listed.of_mem {e : ActivePage} (hl : Listed m own e r v) (h : m'.mem = m.mem) : Listed m' own e r v :=
  ⟨hl.root, hl.user, (getPte_mem h _ _).trans hl.pte, by rw [entry_mem h]; exact hl.present,
    by rw [entry_mem h]; exact hl.kva, hl.owner⟩

theorem TablesOk.of_mem (T : TablesOk m own) (h : m'.mem = m.mem) : TablesOk m' own := by
  refine ⟨fun {r a o} hp => ?_, fun {r p} hb => ?_, fun {p r k j} hp hj => ?_⟩
  · rw [readPte_mem h]
    exact T.down hp
  · obtain ⟨a, hp⟩ := T.up hb
    rw [← readPte_mem h] at hp
    exact ⟨a, hp⟩
  · rw [readPte_mem h]
    exact T.leaf hp hj

/-- A step that does not change the memory. -/
theorem frame_of_mem (X : Set Owner) (own : ℕ → Owner) (h : m'.mem = m.mem) : Frame X m own m' own :=
  ⟨fun _ => Iff.rfl, fun _ _ _ => rfl, fun _ _ => id, fun _ _ _ ha => (getPte_mem h _ _).trans ha,
    fun _ _ _ => by rw [entry_mem h]; exact Like.refl _, fun _ _ => by rw [h]⟩

/-- Changes to the list of active pages and the states of the swap slots. -/
theorem SpaceOk.fields (S : SpaceOk m own) (hmem : m'.mem = m.mem) (hlist : m'.freePageList = m.freePageList)
    (hcount : m'.freePageListCount = m.freePageListCount) (hcurr : m'.kernMemCurr = m.kernMemCurr)
    (htable : m'.shmTable = m.shmTable) (A : ActiveOk m' own) (W : SwapOk m' own) : SpaceOk m' own := by
  have F : Frame ∅ m own m' own := frame_of_mem ∅ own hmem
  exact ⟨S.heap.congr (fun _ _ _ _ => by rw [hmem]) hlist hcount hcurr, S.tables.of_mem hmem, A, W,
    S.shm.frame F htable (fun _ _ _ _ hx => absurd hx id) fun _ => id, S.kernel_frame F.low⟩

theorem SwapOk.of_mem (W : SwapOk m own) (hmem : m'.mem = m.mem) (hstatus : m'.swapPageStatus = m.swapPageStatus) :
    SwapOk m' own := by
  refine ⟨fun {r v} => ?_, fun {r v r' v'} => ?_⟩
  · rw [entry_mem hmem, hstatus]
    exact W.taken
  · rw [entry_mem hmem, entry_mem hmem]
    exact W.distinct

end fields

theorem ActiveOk.of_mem (A : ActiveOk m own) (hmem : m'.mem = m.mem) (hpages : m'.activePages = m.activePages)
    (hcount : m'.activePageCount = m.activePageCount) (hclock : m'.clockHead < maxAllowablePages) :
    ActiveOk m' own := by
  refine ⟨fun i hi hv => ?_, ?_, ?_, hclock⟩
  · rw [hpages] at hv ⊢
    obtain ⟨r, v, h⟩ := A.listed i hi hv
    exact ⟨r, v, h.of_mem hmem⟩
  · rw [hpages]
    exact A.first
  · rw [hpages, hcount]
    exact A.count

/-! ## remove_from_active_list -/

section list
variable {m m' : Memory} {own : ℕ → Owner} {r v kva idx : ℕ}

theorem nextValid_spec {fuel i j : ℕ} (h : nextValid m fuel i = some j) (hi : i < maxAllowablePages) :
    j < maxAllowablePages ∧ (m.activePages j).valid := by
  induction fuel generalizing i with
  | zero => cases h
  | succ fuel ih =>
    rw [nextValid] at h
    split at h
    · rename_i hv
      cases h
      exact ⟨hi, hv⟩
    · exact ih h (Nat.mod_lt _ (by decide))

/-- The list without the entry `idx`. -/
def dropActive (idx : ℕ) (m : Memory) : Memory :=
  { m with
    activePages := Function.update m.activePages idx { m.activePages idx with valid := false }
    activePageCount := m.activePageCount - 1 }

theorem dropActive_valid {i : ℕ} : ((dropActive idx m).activePages i).valid = true ↔
    i ≠ idx ∧ (m.activePages i).valid = true := by
  unfold dropActive
  by_cases h : i = idx
  · subst h
    simp
  · simp [h]

theorem dropActive_of_ne {i : ℕ} (h : i ≠ idx) : (dropActive idx m).activePages i = m.activePages i :=
  Function.update_of_ne h _ _

theorem dropActive_kva (i : ℕ) : ((dropActive idx m).activePages i).kva = (m.activePages i).kva := by
  by_cases h : i = idx
  · subst h
    simp [dropActive]
  · rw [dropActive_of_ne h]

theorem ActiveOk.drop (A : ActiveOk m own) (idx : ℕ) : ActiveOk (dropActive idx m) own := by
  refine ⟨fun i hi hvalid => ?_, fun i hi j hj hvalid => ?_, ?_, A.clock⟩
  · obtain ⟨hne, hv⟩ := dropActive_valid.1 hvalid
    obtain ⟨r, v, h⟩ := A.listed i hi hv
    rw [dropActive_of_ne hne]
    exact ⟨r, v, h.of_mem rfl⟩
  · rw [dropActive_kva, dropActive_kva]
    exact A.first i hi j hj (dropActive_valid.1 hvalid).2
  · have hfilter : ((Finset.range maxAllowablePages).filter fun i => ((dropActive idx m).activePages i).valid) =
        ((Finset.range maxAllowablePages).filter fun i => (m.activePages i).valid).erase idx := by
      ext i
      rw [Finset.mem_erase, Finset.mem_filter, Finset.mem_filter, dropActive_valid]
      tauto
    have h1 := Finset.pred_card_le_card_erase (a := idx)
      (s := (Finset.range maxAllowablePages).filter fun i => (m.activePages i).valid)
    have h2 := A.count
    rw [hfilter]
    show m.activePageCount - 1 ≤ _
    omega

theorem ActiveOk.withClock (A : ActiveOk m own) {c : ℕ} (hc : c < maxAllowablePages) :
    ActiveOk { m with clockHead := c } own :=
  ⟨fun i hi hv => by
    obtain ⟨r, v, h⟩ := A.listed i hi hv
    exact ⟨r, v, h.of_mem rfl⟩, A.first, A.count, hc⟩

/-- What `remove_from_active_list` does: nothing when no entry has the page, otherwise it drops the first one. -/
theorem removeFromActiveList_cases (kva : ℕ) (m : Memory) :
    ((∀ i < maxAllowablePages, (m.activePages i).kva ≠ kva) ∧ removeFromActiveList kva m = some m) ∨
      ∃ idx < maxAllowablePages, (m.activePages idx).kva = kva ∧ (∀ j < idx, (m.activePages j).kva ≠ kva) ∧
        removeFromActiveList kva m = if 0 < (dropActive idx m).activePageCount ∧ (dropActive idx m).clockHead = idx then
            (nextValid (dropActive idx m) (maxAllowablePages + 1) (dropActive idx m).clockHead).map fun c =>
              { dropActive idx m with clockHead := c }
          else some (dropActive idx m) := by
  unfold removeFromActiveList
  cases hscan : scan (fun i => if (m.activePages i).kva = kva then some i else none) 0 maxAllowablePages with
  | none =>
    refine Or.inl ⟨fun i hi hk => ?_, rfl⟩
    have := scan_eq_none.1 hscan i (Nat.zero_le _) (by omega)
    rw [if_pos hk] at this
    cases this
  | some idx =>
    obtain ⟨j, -, hj, hif, hbefore⟩ := scan_eq_some.1 hscan
    split_ifs at hif with hk
    obtain rfl := Option.some.inj hif
    refine Or.inr ⟨j, by omega, hk, fun i hi hki => ?_, rfl⟩
    have := hbefore i (Nat.zero_le _) hi
    rw [if_pos hki] at this
    cases this

/-- **remove_from_active_list** changes the list only, and no valid entry has the page afterwards. -/
theorem removeFromActiveList_spec (A : ActiveOk m own) (h : removeFromActiveList kva m = some m') :
    (∃ pages n c, m' = { m with activePages := pages, activePageCount := n, clockHead := c }) ∧ ActiveOk m' own ∧
      ∀ i < maxAllowablePages, (m'.activePages i).valid →
        m'.activePages i = m.activePages i ∧ (m'.activePages i).kva ≠ kva := by
  rcases removeFromActiveList_cases kva m with ⟨hno, heq⟩ | ⟨j, hj, hk, hfirst, heq⟩
  · rw [heq] at h
    cases h
    exact ⟨⟨_, _, _, rfl⟩, A, fun i hi hv => ⟨rfl, hno i hi⟩⟩
  · have hgone (i : ℕ) (hi : i < maxAllowablePages) (hv : ((dropActive j m).activePages i).valid) :
        (dropActive j m).activePages i = m.activePages i ∧ ((dropActive j m).activePages i).kva ≠ kva := by
      obtain ⟨hne, hv⟩ := dropActive_valid.1 hv
      rw [dropActive_of_ne hne]
      refine ⟨rfl, fun hik => ?_⟩
      rcases Nat.lt_or_gt_of_ne hne with hlt | hgt
      · exact hfirst i hlt hik
      · exact A.first i hi j hgt hv (hk.trans hik.symm)
    have hdrop := A.drop j
    rw [heq] at h
    split at h
    · obtain ⟨c, hc, rfl⟩ := Option.map_eq_some_iff.1 h
      exact ⟨⟨_, _, _, rfl⟩, hdrop.withClock (nextValid_spec hc A.clock).1, hgone⟩
    · cases h
      exact ⟨⟨_, _, _, rfl⟩, hdrop, hgone⟩

theorem SpaceOk.removeFromActiveList (S : SpaceOk m own) (h : removeFromActiveList kva m = some m') : SpaceOk m' own := by
  obtain ⟨⟨pages, n, c, rfl⟩, A, -⟩ := removeFromActiveList_spec S.active h
  exact S.fields rfl rfl rfl rfl rfl A (S.swap.of_mem rfl rfl)

end list

/-! ## The accessed bit -/

section clock
variable {m m' : Memory} {own own' : ℕ → Owner} {r v e : ℕ}

/-- The entry without its accessed bit. -/
def unaccessed (e : ℕ) : ℕ := setAttribute e (getAttribute e 0x3ff &&& (0xffffffffffffffff - pageAccessed))

theorem unaccessed_eq (e : ℕ) : unaccessed e = e / 2 ^ 10 * 2 ^ 10 + (e % 2 ^ 10 &&& 0xffffffffffffffbf) := by
  have h1 : getAttribute e 0x3ff = e % 2 ^ 10 := Nat.and_two_pow_sub_one_eq_mod e 10
  have h2 : e % 2 ^ 10 &&& 0xffffffffffffffbf < 1024 := Nat.and_le_left.trans_lt (Nat.mod_lt _ (by norm_num))
  unfold unaccessed setAttribute
  rw [h1]
  exact or_flags e h2

/-- A mask without the accessed bit does not see the change. -/
theorem getAttribute_unaccessed {mask : ℕ} (hm : mask < 1024) (hmask : 0xffffffffffffffbf &&& mask = mask) :
    getAttribute (unaccessed e) mask = getAttribute e mask := by
  have h2 : e % 2 ^ 10 &&& 0xffffffffffffffbf < 1024 := Nat.and_le_left.trans_lt (Nat.mod_lt _ (by norm_num))
  have hsplit : e = e / 2 ^ 10 * 2 ^ 10 + e % 2 ^ 10 := by omega
  calc getAttribute (unaccessed e) mask
      = (e / 2 ^ 10 * 2 ^ 10 + (e % 2 ^ 10 &&& 0xffffffffffffffbf)) &&& mask := by rw [unaccessed_eq, getAttribute]
    _ = e % 2 ^ 10 &&& 0xffffffffffffffbf &&& mask := add_and_mask _ hm h2
    _ = e % 2 ^ 10 &&& mask := by rw [Nat.and_assoc, hmask]
    _ = (e / 2 ^ 10 * 2 ^ 10 + e % 2 ^ 10) &&& mask := (add_and_mask _ hm (Nat.mod_lt _ (by norm_num))).symm
    _ = getAttribute e mask := by rw [← hsplit, getAttribute]

theorem like_unaccessed (hp : Present e) : Like e (unaccessed e) := by
  have h1 : Present (unaccessed e) ↔ Present e := by
    unfold Present
    rw [getAttribute_unaccessed (by decide) (by decide)]
  refine Or.inr ⟨hp, h1.2 hp, ?_, and_congr h1 ?_⟩
  · have h2 : unaccessed e / 2 ^ 10 = e / 2 ^ 10 := by
      have h3 : e % 2 ^ 10 &&& 0xffffffffffffffbf < 1024 := Nat.and_le_left.trans_lt (Nat.mod_lt _ (by norm_num))
      rw [unaccessed_eq]
      omega
    unfold target getPa
    rw [h2]
  · rw [getAttribute_unaccessed (by decide) (by decide)]

theorem unaccessed_lt (he : e < 2 ^ 64) : unaccessed e < 2 ^ 64 := by
  have h := Nat.and_le_left (n := e % 2 ^ 10) (m := 0xffffffffffffffbf)
  rw [unaccessed_eq]
  omega

theorem LeafOk.like {e' : ℕ} (h : LeafOk own r v e) (hl : Like e e') : LeafOk own r v e' := by
  have hs : Present e' → (getAttribute e' pageShm ≠ 0 ↔ getAttribute e pageShm ≠ 0) := fun hp => by
    have := hl.shared
    unfold Shared at this
    rw [and_iff_right hp, and_iff_right (hl.present.1 hp)] at this
    exact this
  refine ⟨fun hp h0 => ?_, fun hp h0 => ?_⟩
  · rw [hl.target]
    exact h.data (hl.present.1 hp) (not_not.1 fun hn => (hs hp).2 hn h0)
  · rw [hl.target]
    exact h.shm (hl.present.1 hp) ((hs hp).1 h0)

/-- The entry of a page number agrees with the owners. -/
theorem SpaceOk.leafOk {a : ℕ} (S : SpaceOk m own) (hr : own r = .root) (hv : v < userPages)
    (ha : getPte (v * 4096) r m = some a) : LeafOk own r v (entry m r v) := by
  obtain ⟨t, ht, rfl⟩ := S.tables.slot hr hv ha
  have h := S.tables.leaf ht (j := v % 512) (Nat.mod_lt _ (by norm_num))
  rwa [← entry_slot hv ha, show 512 * (v / 512) + v % 512 = v by omega] at h

/-- **An entry that says the same** but for the accessed bit. -/
theorem SpaceOk.relike {a e' : ℕ} (S : SpaceOk m own) (hr : own r = .root) (hv : v < userPages)
    (ha : getPte (v * 4096) r m = some a) (he : e' < 2 ^ 64) (hlike : Like (entry m r v) e') :
    SpaceOk (writePte a e' m) own ∧ Frame ∅ m own (writePte a e' m) own ∧ Untouched ∅ m own (writePte a e' m) := by
  have E := S.entered hr hv ha he (Turn.refl own r v) ((S.leafOk hr hv ha).like hlike)
  have F : Frame ∅ m own (writePte a e' m) own := by
    refine ⟨E.frame.root, fun _ _ _ => rfl, fun _ _ => id, fun {r' v' b} hr' hv' _ hb => ?_,
      fun {r' v'} hr' hv' _ => ?_, E.frame.low⟩
    · by_cases h : Owner.data r' v' ∈ ({.data r v} : Set Owner)
      · cases h
        rw [ha] at hb
        rw [E.pte, hb]
      · exact E.frame.pte hr' hv' h hb
    · by_cases h : Owner.data r' v' ∈ ({.data r v} : Set Owner)
      · cases h
        rw [E.entry]
        exact hlike
      · exact E.frame.entry hr' hv' h
  exact ⟨S.frame E.heap E.tables F (writePte_rest _ _ _) (fun _ _ _ _ hx => absurd hx id) fun _ => id, F, E.untouched⟩

/-- **Clearing the accessed bit** of an entry. -/
theorem SpaceOk.unaccess {a : ℕ} (S : SpaceOk m own) (hr : own r = .root) (hv : v < userPages)
    (ha : getPte (v * 4096) r m = some a) (hp : Present (entry m r v)) :
    SpaceOk (writePte a (unaccessed (readPte m a)) m) own ∧
      Frame ∅ m own (writePte a (unaccessed (readPte m a)) m) own ∧
      Untouched ∅ m own (writePte a (unaccessed (readPte m a)) m) := by
  refine S.relike hr hv ha (unaccessed_lt (readPte_lt m a)) ?_
  rw [← entry_slot hv ha]
  exact like_unaccessed hp

/-- **The search of `swap_out`** clears accessed bits and stops at a valid entry. -/
theorem clockScan_spec {fuel : ℕ} (S : SpaceOk m own) (h : clockScan fuel m = some m') :
    SpaceOk m' own ∧ Frame ∅ m own m' own ∧ Untouched ∅ m own m' ∧ (m'.activePages m'.clockHead).valid ∧
      m'.sd = m.sd ∧ m'.activePages = m.activePages ∧ m'.activePageCount = m.activePageCount ∧
      m'.swapPageStatus = m.swapPageStatus ∧ m'.swapStartSec = m.swapStartSec ∧ m'.shmTable = m.shmTable ∧
      m'.kernMemCurr = m.kernMemCurr := by
  induction fuel generalizing m with
  | zero => cases h
  | succ fuel ih =>
    rw [clockScan, Option.bind_eq_some_iff] at h
    obtain ⟨i, hi, h⟩ := h
    obtain ⟨hi4, hvalid⟩ := nextValid_spec hi S.active.clock
    let m1 : Memory := { m with clockHead := i }
    have S1 : SpaceOk m1 own := S.fields rfl rfl rfl rfl rfl (S.active.withClock hi4) (S.swap.of_mem rfl rfl)
    have F1 : Frame ∅ m own m1 own := frame_of_mem ∅ own rfl
    obtain ⟨r, v, hl⟩ := S1.active.listed i hi4 hvalid
    dsimp only at h
    split at h
    · obtain ⟨S2, F2, U2⟩ := S1.unaccess hl.root hl.user hl.pte hl.present
      let m2 : Memory := writePte (m1.activePages i).pte (unaccessed (readPte m1 (m1.activePages i).pte)) m1
      let m3 : Memory := { m2 with clockHead := (i + 1) % maxAllowablePages }
      have hc : (i + 1) % maxAllowablePages < maxAllowablePages := Nat.mod_lt _ (by decide)
      have S3 : SpaceOk m3 own := S2.fields rfl rfl rfl rfl rfl (S2.active.withClock hc) (S2.swap.of_mem rfl rfl)
      have F3 : Frame ∅ m2 own m3 own := frame_of_mem ∅ own rfl
      obtain ⟨S4, F4, U4, h4⟩ := ih S3 h
      exact ⟨S4, F1.trans (F2.trans (F3.trans F4)), Untouched.trans U2 (F1.trans F2) U4, h4⟩
    · cases h
      exact ⟨S1, F1, fun _ _ _ _ _ => rfl, hvalid, rfl, rfl, rfl, rfl, rfl, rfl, rfl⟩

end clock

/-! ## What programs see -/

section contents
variable {m m' : Memory} {own own' : ℕ → Owner} {r v : ℕ} {X : Set Owner}

/-- The contents of a page number: in memory, in the swap area, or zeros where nothing has been written. -/
def pageOf (m : Memory) (r v off : ℕ) : Byte :=
  if Present (entry m r v) then m.mem (target (entry m r v) + off)
  else if Swapped (entry m r v) then m.sd (swapOffset (swapIdOf (entry m r v)) m + off)
  else 0#8

/-- An entry that is not 0 has an address. -/
theorem slot_of_ne_zero (h : entry m r v ≠ 0) : ∃ a, getPte (v * 4096) r m = some a := by
  cases ha : getPte (v * 4096) r m with
  | none =>
    refine absurd ?_ h
    unfold entry
    rw [ha]
  | some a => exact ⟨a, rfl⟩

theorem slot_of_present (h : Present (entry m r v)) : ∃ a, getPte (v * 4096) r m = some a :=
  slot_of_ne_zero fun h0 => not_present_zero (h0 ▸ h)

/-- The page of a present entry is a page of the program or a shared page. -/
theorem SpaceOk.target_held (S : SpaceOk m own) (hr : own r = .root) (hv : v < userPages) (h : Present (entry m r v)) :
    own (target (entry m r v)) = .data r v ∧ ¬ Shared (entry m r v) ∨
      ∃ i, own (target (entry m r v)) = .shm i ∧ Shared (entry m r v) := by
  obtain ⟨a, ha⟩ := slot_of_present h
  have hleaf := S.leafOk hr hv ha
  by_cases hs : getAttribute (entry m r v) pageShm = 0
  · exact Or.inl ⟨hleaf.data h hs, fun hsh => hsh.2 hs⟩
  · obtain ⟨i, hi⟩ := hleaf.shm h hs
    exact Or.inr ⟨i, hi, h, hs⟩

/-- A step that leaves a page alone leaves its contents alone. -/
theorem pageOf_frame (S : SpaceOk m own) (F : Frame X m own m' own') (U : Untouched X m own m') (hr : own r = .root)
    (hv : v < userPages) (hX : .data r v ∉ X) (hXs : ∀ i, .shm i ∉ X) (hstart : m'.swapStartSec = m.swapStartSec)
    (hsd : Swapped (entry m r v) → ∀ off < 4096, m'.sd (swapOffset (swapIdOf (entry m r v)) m + off) =
      m.sd (swapOffset (swapIdOf (entry m r v)) m + off)) {off : ℕ} (hoff : off < 4096) :
    pageOf m' r v off = pageOf m r v off := by
  have hlike := F.entry hr hv hX
  unfold pageOf
  by_cases hp : Present (entry m r v)
  · rw [if_pos hp, if_pos (hlike.present.2 hp), hlike.target]
    have hin : InPage (target (entry m r v)) (target (entry m r v) + off) := ⟨by omega, by omega⟩
    rcases S.target_held hr hv hp with ⟨ho, -⟩ | ⟨i, ho, -⟩
    · exact U _ (by rw [ho]; trivial) (by rw [ho]; exact hX) _ hin
    · exact U _ (by rw [ho]; trivial) (by rw [ho]; exact hXs i) _ hin
  · rw [hlike.eq_of_not_present hp, if_neg hp, if_neg hp]
    by_cases hs : Swapped (entry m r v)
    · rw [if_pos hs, if_pos hs]
      unfold swapOffset at hsd ⊢
      rw [hstart]
      exact hsd hs off hoff
    · rw [if_neg hs, if_neg hs]

end contents

/-! ## swap_out -/

section swap
variable {m m' : Memory} {own own' : ℕ → Owner} {r v swapId : ℕ}

/-- The entry of a page in a slot of the swap area. -/
def swapEntry (swapId : ℕ) : ℕ := swapId * 2 ^ 10 ||| pageSwap

theorem swapEntry_eq (swapId : ℕ) : swapEntry swapId = swapId * 2 ^ 10 + pageSwap := by
  have h := or_flags (swapId * 2 ^ 10) (show pageSwap < 1024 by decide)
  rwa [show swapId * 2 ^ 10 / 2 ^ 10 * 2 ^ 10 = swapId * 2 ^ 10 by omega] at h

theorem swapped_swapEntry : Swapped (swapEntry swapId) := by
  refine ⟨?_, ?_⟩
  · rw [present_iff, swapEntry_eq, pageSwap]
    omega
  · rw [swapEntry_eq, getAttribute, add_and_mask _ (by decide) (by decide)]
    decide

theorem swapIdOf_swapEntry : swapIdOf (swapEntry swapId) = swapId := by
  rw [swapEntry_eq, swapIdOf, pageSwap]
  omega

theorem swapEntry_lt (h : swapId < swapMaxPages) : swapEntry swapId < 2 ^ 64 := by
  rw [swapEntry_eq, pageSwap]
  unfold swapMaxPages at h
  omega

/-- **The entry of a page that goes to the swap area.** -/
theorem SpaceOk.swapLeaf {a q : ℕ} (S : SpaceOk m own) (hr : own r = .root) (hv : v < userPages)
    (ha : getPte (v * 4096) r m = some a) (hp : Present (entry m r v)) (hq : own q = .data r v)
    (ht : target (entry m r v) = q) (hunlisted : Unlisted m own r v) (hid : swapId < swapMaxPages)
    (hfree : m.swapPageStatus swapId = false) (d : Mem) :
    SpaceOk (writePte a (swapEntry swapId)
        { m with sd := d, swapPageStatus := Function.update m.swapPageStatus swapId true })
        (Function.update own q .kernel) ∧
      Entered m own (Function.update own q .kernel) r v a (swapEntry swapId) := by
  have E := S.entered hr hv ha (swapEntry_lt hid) (Turn.one (Or.inr hq) (Or.inl rfl))
    (leafOk_of_not_present swapped_swapEntry.1)
  have hshared : ¬ Shared (entry m r v) := fun hs => by
    rcases S.target_held hr hv hp with ⟨-, h⟩ | ⟨i, h, -⟩
    · exact h hs
    · rw [ht, hq] at h
      cases h
  have hx {r' v' : ℕ} (h : Owner.data r' v' ∈ ({.data r v} : Set Owner)) : r' = r ∧ v' = v := by
    cases h
    exact ⟨rfl, rfl⟩
  -- the part without the swap slots
  let m1 : Memory := writePte a (swapEntry swapId) m
  let m2 : Memory := writePte a (swapEntry swapId)
    { m with sd := d, swapPageStatus := Function.update m.swapPageStatus swapId true }
  have hmem : m2.mem = m1.mem := rfl
  have F : Frame {.data r v} m own m2 (Function.update own q .kernel) := E.frame.trans (frame_of_mem _ _ hmem)
  have A : ActiveOk m2 (Function.update own q .kernel) := S.active.frame F rfl rfl rfl fun r' v' _ _ h => by
    obtain ⟨rfl, rfl⟩ := hx h
    exact hunlisted
  have hentry (r' v' : ℕ) : entry m2 r' v' = entry m1 r' v' := entry_mem hmem r' v'
  have H : ShmOk m2 (Function.update own q .kernel) := S.shm.frame F rfl (fun r' v' _ _ h => by
    obtain ⟨rfl, rfl⟩ := hx h
    rw [hentry, E.entry]
    exact ⟨hshared, fun hs => swapped_swapEntry.1 hs.1⟩) fun i => nofun
  have hcase {r' v' : ℕ} (hr' : own r' = .root) (hv' : v' < userPages) (hs : Swapped (entry m2 r' v')) :
      (r' = r ∧ v' = v ∧ entry m2 r' v' = swapEntry swapId) ∨
        (entry m2 r' v' = entry m r' v' ∧ Swapped (entry m r' v') ∧ swapIdOf (entry m r' v') ≠ swapId) := by
    by_cases h : Owner.data r' v' ∈ ({.data r v} : Set Owner)
    · obtain ⟨rfl, rfl⟩ := hx h
      exact Or.inl ⟨rfl, rfl, (hentry _ _).trans E.entry⟩
    · have heq := (F.entry hr' hv' h).swapped hs
      rw [heq] at hs
      refine Or.inr ⟨heq, hs, fun he => ?_⟩
      have := (S.swap.taken hr' hv' hs).2
      rw [he, hfree] at this
      cases this
  have W : SwapOk m2 (Function.update own q .kernel) := by
    refine ⟨fun {r' v'} hr' hv' hs => ?_, fun {r' v' r'' v''} hr' hv' hs hr'' hv'' hs' heq => ?_⟩
    · have hr' := (F.root r').1 hr'
      rcases hcase hr' hv' hs with ⟨-, -, he⟩ | ⟨he, hold, hne⟩
      · rw [he, swapIdOf_swapEntry]
        exact ⟨hid, Function.update_self _ _ _⟩
      · rw [he]
        obtain ⟨h1, h2⟩ := S.swap.taken hr' hv' hold
        exact ⟨h1, (Function.update_of_ne hne _ _).trans h2⟩
    · have hr' := (F.root r').1 hr'
      have hr'' := (F.root r'').1 hr''
      rcases hcase hr' hv' hs with ⟨rfl, rfl, he⟩ | ⟨he, hold, hne⟩ <;>
        rcases hcase hr'' hv'' hs' with ⟨rfl, rfl, he'⟩ | ⟨he', hold', hne'⟩
      · exact ⟨rfl, rfl⟩
      · rw [he, he', swapIdOf_swapEntry] at heq
        exact absurd heq.symm hne'
      · rw [he, he', swapIdOf_swapEntry] at heq
        exact absurd heq hne
      · rw [he, he'] at heq
        exact S.swap.distinct hr' hv' hold hr'' hv'' hold' heq
  exact ⟨⟨E.heap.congr (fun _ _ _ _ => rfl) rfl rfl rfl, E.tables.of_mem hmem, A, W, H, S.kernel_frame F.low⟩, E⟩

/-- What `swap_out` has done: page number `v` of `r`, the page of entry `idx`, is in slot `swapId`. The entry of
the list is left for the caller. -/
structure SwappedOut (m : Memory) (own : ℕ → Owner) (m' : Memory) (idx : ℕ) (x : ActivePage) (r v swapId : ℕ) :
    Prop where
  index : idx < maxAllowablePages
  page : m.activePages idx = x
  valid : x.valid
  listed : Listed m own x r v
  space : SpaceOk (dropActive idx m') (Function.update own x.kva .free)
  frame : Frame {.data r v} m own m' (Function.update own x.kva .free)
  untouched : Untouched {.data r v} m own m'
  entry : entry m' r v = swapEntry swapId
  slot : swapId < swapMaxPages ∧ m.swapPageStatus swapId = false
  saved : ∀ i < 4096, m'.sd (swapOffset swapId m + i) = m.mem (x.kva + i)
  sd : ∀ b, b < swapOffset swapId m ∨ swapOffset swapId m + 4096 ≤ b → m'.sd b = m.sd b
  pages : m'.activePages = m.activePages
  count : m'.activePageCount = m.activePageCount
  start : m'.swapStartSec = m.swapStartSec
  curr : m'.kernMemCurr = m.kernMemCurr
  status : m'.swapPageStatus = Function.update m.swapPageStatus swapId true
  shm : m'.shmTable = m.shmTable

/-- A page number has one entry in the list. -/
theorem ActiveOk.unlisted_drop {idx : ℕ} (A : ActiveOk m own) (hi : idx < maxAllowablePages)
    (hv : (m.activePages idx).valid) (hl : Listed m own (m.activePages idx) r v) :
    Unlisted (dropActive idx m) own r v := by
  intro i hi' hv' hl'
  obtain ⟨hne, hvi⟩ := dropActive_valid.1 hv'
  rw [dropActive_of_ne hne] at hl'
  have hkva : (m.activePages i).kva = (m.activePages idx).kva := by
    rw [← hl'.kva, ← hl.kva]
    exact congrArg target (entry_mem rfl r v)
  rcases Nat.lt_or_gt_of_ne hne with h | h
  · exact A.first idx hi i h hv hkva
  · exact A.first i hi' idx h hvi hkva.symm

theorem getFreeSwapId_some {m2 : Memory} (h : getFreeSwapId m = some (swapId, m2)) :
    swapId < swapMaxPages ∧ m.swapPageStatus swapId = false ∧
      m2 = { m with swapPageStatus := Function.update m.swapPageStatus swapId true } := by
  obtain ⟨i, hi, he⟩ := Option.map_eq_some_iff.1 h
  obtain ⟨rfl, rfl⟩ := Prod.mk.inj he
  obtain ⟨j, -, hj, hif, -⟩ := scan_eq_some.1 hi
  split_ifs at hif with hs
  obtain rfl := Option.some.inj hif
  exact ⟨by omega, by simpa using hs, rfl⟩

theorem freePage_eq {p : ℕ} (hp : p ≠ 0) : freePage p m = { m with
    mem := putLe m.mem p 8 m.freePageList
    freePageList := p
    freePageListCount := m.freePageListCount + 1
    pageLog := m.pageLog ++ [.free p] } := if_neg hp

/-- The memory after `swap_out` has moved the page of the entry `x` to the slot `swapId`. -/
def swappedOut (x : ActivePage) (swapId : ℕ) (m : Memory) : Memory :=
  { freePage x.kva (writePte x.pte (swapEntry swapId)
      (swapWrite x.kva swapId { m with swapPageStatus := Function.update m.swapPageStatus swapId true })) with
    clockHead := (m.clockHead + 1) % maxAllowablePages }

theorem swapOut_eq {idx : ℕ} (h : swapOut m = some (some idx, m')) :
    ∃ m1 swapId, clockScan (maxAllowablePages + 1) m = some m1 ∧ m1.clockHead = idx ∧ swapId < swapMaxPages ∧
      m1.swapPageStatus swapId = false ∧ m' = swappedOut (m1.activePages idx) swapId m1 := by
  obtain ⟨m1, hscan, hm⟩ := Option.map_eq_some_iff.1 h
  dsimp only at hm
  cases hget : getFreeSwapId m1 with
  | none =>
    rw [hget] at hm
    cases hm
  | some x =>
    obtain ⟨swapId, m2⟩ := x
    obtain ⟨hid, hfree, rfl⟩ := getFreeSwapId_some hget
    rw [hget] at hm
    obtain ⟨h1, rfl⟩ := Prod.mk.inj hm
    have h2 := Option.some.inj h1
    rw [(freePage_rest _ _).clockHead] at h2 ⊢
    have h3 : m1.clockHead = idx := h2
    exact ⟨m1, swapId, hscan, h3, hid, hfree, by rw [← h3]; rfl⟩

/-- **swap_out** when there is a free slot. -/
theorem swapOut_some {idx : ℕ} (S : SpaceOk m own) (h : swapOut m = some (some idx, m')) :
    ∃ x r v swapId, SwappedOut m own m' idx x r v swapId := by
  obtain ⟨m1, swapId, hscan, hhead, hid, hfree, rfl⟩ := swapOut_eq h
  obtain ⟨S1, F1, U1, hvalid, hsd1, hpages1, hcount1, hstatus1, hstart1, hshm1, hcurr1⟩ := clockScan_spec S hscan
  rw [hhead] at hvalid
  have hidx : idx < maxAllowablePages := hhead ▸ S1.active.clock
  obtain ⟨r, v, hl⟩ := S.active.listed idx hidx (by rw [← hpages1]; exact hvalid)
  have hl1 : Listed m1 own (m1.activePages idx) r v := by
    rw [hpages1]
    exact hl.frame F1 id
  rw [hpages1] at hvalid
  rw [hpages1] at hl1 ⊢
  generalize hx : m.activePages idx = x at *
  have hq : IsPage x.kva := S.heap.isPage (by rw [hl.owner]; exact nofun)
  have hq0 : x.kva ≠ 0 := fun h0 => by
    have := hq.2.1
    rw [h0] at this
    exact absurd this (by decide)
  have Sd : SpaceOk (dropActive idx m1) own :=
    S1.fields rfl rfl rfl rfl rfl (S1.active.drop idx) (S1.swap.of_mem rfl rfl)
  have hunl : Unlisted (dropActive idx m1) own r v :=
    S1.active.unlisted_drop hidx (by rw [hpages1, hx]; exact hvalid) (by rw [hpages1, hx]; exact hl1)
  have hld : Listed (dropActive idx m1) own x r v := hl1.of_mem rfl
  obtain ⟨S2, E⟩ := Sd.swapLeaf hld.root hld.user hld.pte hld.present hld.owner hld.kva hunl hid hfree
    (blit m1.sd (swapOffset swapId m1) m1.mem x.kva (sectorNumsPerPage * sectorSize))
  obtain ⟨S3, F3, U3⟩ := S2.free (p := x.kva) (Function.update_self _ _ _)
  rw [Function.update_idem] at S3 F3
  -- the page is written before its entry, and the list does not matter to the memory
  have hto : swappedOut x swapId m1 = { m1 with
      mem := putLe (putLe m1.mem x.pte 8 (swapEntry swapId)) x.kva 8 m1.freePageList
      sd := blit m1.sd (swapOffset swapId m1) m1.mem x.kva (sectorNumsPerPage * sectorSize)
      swapPageStatus := Function.update m1.swapPageStatus swapId true
      freePageList := x.kva
      freePageListCount := m1.freePageListCount + 1
      clockHead := (m1.clockHead + 1) % maxAllowablePages
      pageLog := m1.pageLog ++ [.free x.kva] } := by
    unfold swappedOut
    rw [freePage_eq hq0]
    rfl
  rw [hto]
  let m2 : Memory := writePte x.pte (swapEntry swapId) (dropActive idx m1)
  let m3 : Memory := writePte x.pte (swapEntry swapId) { dropActive idx m1 with
    sd := blit m1.sd (swapOffset swapId m1) m1.mem x.kva (sectorNumsPerPage * sectorSize)
    swapPageStatus := Function.update m1.swapPageStatus swapId true }
  have Fd : Frame {.data r v} m own (dropActive idx m1) own :=
    (F1.mono (Set.empty_subset _)).trans (frame_of_mem _ own rfl)
  have F2 : Frame {.data r v} m own m3 (Function.update own x.kva .kernel) :=
    have F3 : Frame {.data r v} m2 (Function.update own x.kva .kernel) m3 (Function.update own x.kva .kernel) :=
      frame_of_mem _ _ rfl
    Fd.trans (E.frame.trans F3)
  have U2 : Untouched {.data r v} m own m3 :=
    have U2 : Untouched {.data r v} m own (dropActive idx m1) := U1.mono (Set.empty_subset _)
    U2.trans Fd (E.untouched.mono (Set.empty_subset _))
  have F4 : Frame {.data r v} m own (freePage x.kva m3) (Function.update own x.kva .free) :=
    F2.trans (F3.mono (Set.empty_subset _))
  have U4 : Untouched {.data r v} m own (freePage x.kva m3) := U2.trans F2 (U3.mono (Set.empty_subset _))
  have hentry : entry (freePage x.kva m3) r v = swapEntry swapId := by
    have h3 : entry m3 r v = swapEntry swapId := (entry_mem (m := m2) rfl r v).trans E.entry
    refine ((F3.entry ((F2.root r).2 hl.root) hl.user id).eq_of_not_present ?_).trans h3
    refine fun hp => swapped_swapEntry.1 (?_ : Present (swapEntry swapId))
    rw [← h3]
    exact hp
  rw [freePage_eq hq0] at S3 F4 U4 hentry
  have hoff : swapOffset swapId m1 = swapOffset swapId m := by
    unfold swapOffset
    rw [hstart1]
  have hsize : sectorNumsPerPage * sectorSize = 4096 := rfl
  refine ⟨x, r, v, swapId, hidx, hx, hvalid, hl, ?_, F4.trans (frame_of_mem _ _ rfl), U4, ?_, ⟨hid, ?_⟩,
    fun i hi => ?_, fun b hb => ?_, hpages1, hcount1, hstart1, hcurr1, by rw [← hstatus1], hshm1⟩
  · exact S3.fields rfl rfl rfl rfl rfl (S3.active.of_mem rfl rfl rfl (Nat.mod_lt _ (by decide))) (S3.swap.of_mem rfl rfl)
  · exact (entry_mem rfl r v).trans hentry
  · rw [← hstatus1]
    exact hfree
  · rw [← hoff]
    refine (blit_in (by omega)).trans ?_
    exact U1 x.kva (by rw [hl.owner]; trivial) (by rw [hl.owner]; exact id) _ ⟨by omega, by omega⟩
  · rw [← hsd1]
    rw [← hoff] at hb
    exact blit_out (by omega)

/-- **swap_out** when the swap area is full. -/
theorem swapOut_none (S : SpaceOk m own) (h : swapOut m = some (none, m')) :
    SpaceOk m' own ∧ Frame ∅ m own m' own ∧ Untouched ∅ m own m' ∧ m'.sd = m.sd ∧
      m'.swapStartSec = m.swapStartSec ∧ m'.kernMemCurr = m.kernMemCurr ∧ m'.activePages = m.activePages ∧
      m'.swapPageStatus = m.swapPageStatus ∧ m'.shmTable = m.shmTable ∧
      ∀ swapId < swapMaxPages, m.swapPageStatus swapId = true := by
  obtain ⟨m1, hscan, hm⟩ := Option.map_eq_some_iff.1 h
  obtain ⟨S1, F1, U1, -, hsd, hpages, -, hstatus, hstart, hshm, hcurr⟩ := clockScan_spec S hscan
  dsimp only at hm
  cases hget : getFreeSwapId m1 with
  | some x =>
    rw [hget] at hm
    cases hm
  | none =>
    rw [hget] at hm
    cases hm
    refine ⟨S1, F1, U1, hsd, hstart, hcurr, hpages, hstatus, hshm, fun i hi => ?_⟩
    have h1 := scan_eq_none.1 (Option.map_eq_none_iff.1 hget) i (Nat.zero_le _) (by omega)
    split_ifs at h1 with h2
    rw [← hstatus]
    exact h2

end swap

/-! ## add_to_active_list -/

section add
variable {m m' : Memory} {own : ℕ → Owner} {r v a q idx : ℕ} {pid : ℤ} {va : ℕ}

/-- The list with a new entry. -/
def recordActive (idx : ℕ) (e : ActivePage) (m : Memory) : Memory :=
  { m with activePages := Function.update m.activePages idx e, activePageCount := m.activePageCount + 1 }

/-- **A new entry** in the first free place. -/
theorem SpaceOk.record {e : ActivePage} (S : SpaceOk m own) (he : e.valid) (hidx : idx < maxAllowablePages)
    (hbelow : ∀ j < idx, (m.activePages j).valid) (hfree : ¬ (m.activePages idx).valid) (hl : Listed m own e r v)
    (hunlisted : Unlisted m own r v) : SpaceOk (recordActive idx e m) own := by
  have hother (i : ℕ) (hi : i < maxAllowablePages) (hv : (m.activePages i).valid) : (m.activePages i).kva ≠ e.kva := by
    intro hk
    obtain ⟨r', v', hl'⟩ := S.active.listed i hi hv
    have ho := hl'.owner
    rw [hk, hl.owner] at ho
    cases ho
    exact hunlisted i hi hv hl'
  have hne {i : ℕ} (h : i ≠ idx) : (recordActive idx e m).activePages i = m.activePages i :=
    Function.update_of_ne h _ _
  have hself : (recordActive idx e m).activePages idx = e := Function.update_self _ _ _
  have A : ActiveOk (recordActive idx e m) own := by
    refine ⟨fun i hi hv => ?_, fun i hi j hj hv => ?_, ?_, S.active.clock⟩
    · by_cases h : i = idx
      · rw [h, hself]
        exact ⟨r, v, hl.of_mem rfl⟩
      · rw [hne h] at hv ⊢
        obtain ⟨r', v', hl'⟩ := S.active.listed i hi hv
        exact ⟨r', v', hl'.of_mem rfl⟩
    · by_cases h : i = idx
      · rw [h, hself, hne (by omega)]
        exact hother j (by omega) (hbelow j (by omega))
      · rw [hne h] at hv ⊢
        by_cases hj' : j = idx
        · rw [hj', hself]
          exact (hother i hi hv).symm
        · rw [hne hj']
          exact S.active.first i hi j hj hv
    · have hnot : idx ∉ (Finset.range maxAllowablePages).filter fun i => (m.activePages i).valid :=
        fun h => hfree (Finset.mem_filter.1 h).2
      have hsub : insert idx ((Finset.range maxAllowablePages).filter fun i => (m.activePages i).valid) ⊆
          (Finset.range maxAllowablePages).filter fun i => ((recordActive idx e m).activePages i).valid := by
        intro i hi
        rw [Finset.mem_filter, Finset.mem_range]
        rcases Finset.mem_insert.1 hi with rfl | hi
        · rw [hself]
          exact ⟨hidx, he⟩
        · obtain ⟨h1, h2⟩ := Finset.mem_filter.1 hi
          have hii : i ≠ idx := fun h => hfree (h ▸ h2)
          rw [hne hii]
          exact ⟨Finset.mem_range.1 h1, h2⟩
      have h1 := Finset.card_le_card hsub
      rw [Finset.card_insert_of_notMem hnot] at h1
      have h2 := S.active.count
      show m.activePageCount + 1 ≤ _
      omega
  exact S.fields rfl rfl rfl rfl rfl A (S.swap.of_mem rfl rfl)

/-- When the list counts as full, every entry is valid. -/
theorem ActiveOk.all_valid (A : ActiveOk m own) (h : ¬ m.activePageCount < maxAllowablePages) :
    ∀ i < maxAllowablePages, (m.activePages i).valid := by
  have hcard : (Finset.range maxAllowablePages).card ≤
      ((Finset.range maxAllowablePages).filter fun i => (m.activePages i).valid).card := by
    have := A.count
    rw [Finset.card_range]
    omega
  have heq := Finset.eq_of_subset_of_card_le (Finset.filter_subset _ _) hcard
  intro i hi
  have hmem := Finset.mem_range.2 hi
  rw [← heq] at hmem
  exact (Finset.mem_filter.1 hmem).2

/-- Pages may have gone to the swap area, those of the owners in `X`; programs see no difference. -/
structure Evicts (X : Set Owner) (m : Memory) (own : ℕ → Owner) (m' : Memory) (own' : ℕ → Owner) : Prop where
  frame : Frame X m own m' own'
  untouched : Untouched X m own m'
  only : ∀ o ∈ X, ∃ r v, o = .data r v
  swapped : ∀ {r v}, own r = .root → v < userPages → .data r v ∈ X →
    Present (entry m r v) ∧ Swapped (entry m' r v) ∧ ¬ Unlisted m own r v
  contents : ∀ {r v}, own r = .root → v < userPages → ∀ off < 4096, pageOf m' r v off = pageOf m r v off
  curr : m'.kernMemCurr = m.kernMemCurr
  owners : ∀ p, own' p ≠ own p → own' p = .free ∧ own p ∈ X
  freed : ∀ {r v}, own r = .root → v < userPages → .data r v ∈ X → own' (target (entry m r v)) = .free
  slots : ∀ s, m'.swapPageStatus s = true ↔ m.swapPageStatus s = true ∨
    ∃ r v, own r = .root ∧ v < userPages ∧ .data r v ∈ X ∧ swapIdOf (entry m' r v) = s
  shm : m'.shmTable = m.shmTable

/-- A step that does not change what `Evicts` is about. -/
theorem evicts_of_frame {m' : Memory} (S : SpaceOk m own) (F : Frame ∅ m own m' own) (U : Untouched ∅ m own m')
    (hsd : m'.sd = m.sd) (hstart : m'.swapStartSec = m.swapStartSec) (hcurr : m'.kernMemCurr = m.kernMemCurr)
    (hstatus : m'.swapPageStatus = m.swapPageStatus) (hshm : m'.shmTable = m.shmTable) : Evicts ∅ m own m' own :=
  ⟨F, U, fun _ h => absurd h id, fun _ _ h => absurd h id,
    fun hr hv _ hoff => pageOf_frame S F U hr hv id (fun _ => id) hstart (fun _ _ _ => by rw [hsd]) hoff, hcurr,
    fun _ h => absurd rfl h, fun _ _ h => absurd h id, fun s => by rw [hstatus]; exact ⟨Or.inl, fun h => h.elim id fun ⟨_, _, _, _, h, _⟩ => absurd h id⟩,
    hshm⟩

/-- Swapping out shows nothing to programs. -/
theorem SwappedOut.evicts {x : ActivePage} {r v swapId : ℕ} (S : SpaceOk m own)
    (h : SwappedOut m own m' idx x r v swapId) :
    Evicts {.data r v} m own m' (Function.update own x.kva .free) := by
  have hx {r' v' : ℕ} (hm : Owner.data r' v' ∈ ({.data r v} : Set Owner)) : r' = r ∧ v' = v := by
    cases hm
    exact ⟨rfl, rfl⟩
  refine ⟨h.frame, h.untouched, fun o ho => ⟨r, v, ho⟩, fun {r' v'} _ _ hm => ?_, fun {r' v'} hr hv off hoff => ?_, h.curr,
    fun p hp => ?_, fun {r' v'} _ _ hm => ?_, fun s => ?_, h.shm⟩
  · obtain ⟨rfl, rfl⟩ := hx hm
    refine ⟨h.listed.present, by rw [h.entry]; exact swapped_swapEntry, fun hu => ?_⟩
    exact hu idx h.index (by rw [h.page]; exact h.valid) (by rw [h.page]; exact h.listed)
  · by_cases hm : Owner.data r' v' ∈ ({.data r v} : Set Owner)
    · obtain ⟨rfl, rfl⟩ := hx hm
      have hoffset : swapOffset swapId m' = swapOffset swapId m := by
        unfold swapOffset
        rw [h.start]
      unfold pageOf
      rw [h.entry, if_neg swapped_swapEntry.1, if_pos swapped_swapEntry, swapIdOf_swapEntry, if_pos h.listed.present,
        h.listed.kva, hoffset]
      exact h.saved off hoff
    · refine pageOf_frame S h.frame h.untouched hr hv hm (fun i => nofun) h.start (fun hs i hi => h.sd _ ?_) hoff
      have hne : swapIdOf (Mm.entry m r' v') ≠ swapId := fun he => by
        have := (S.swap.taken hr hv hs).2
        rw [he, h.slot.2] at this
        cases this
      unfold swapOffset sectorNumsPerPage sectorSize
      omega
  · have hpk : p = x.kva := by
      by_contra hne
      exact hp (Function.update_of_ne hne _ _)
    rw [hpk, Function.update_self, h.listed.owner]
    exact ⟨rfl, rfl⟩
  · obtain ⟨rfl, rfl⟩ := hx hm
    rw [h.listed.kva]
    exact Function.update_self _ _ _
  · have hs : swapIdOf (Mm.entry m' r v) = swapId := by rw [h.entry, swapIdOf_swapEntry]
    rw [h.status]
    by_cases he : s = swapId
    · rw [he, Function.update_self]
      exact iff_of_true rfl (Or.inr ⟨r, v, h.listed.root, h.listed.user, rfl, hs⟩)
    · rw [Function.update_of_ne he]
      refine ⟨Or.inl, fun h' => h'.elim id fun ⟨r', v', _, _, hm, hid⟩ => ?_⟩
      obtain ⟨rfl, rfl⟩ := hx hm
      exact absurd (hid.symm.trans hs) he

/-- **add_to_active_list** of a page that its caller has mapped and that is not in the list. -/
theorem addToActiveList_spec {pa : ℕ} {ok : Bool} (S : SpaceOk m own) (hr : own r = .root) (hv : vpn va < userPages)
    (ha : getPte va r m = some a) (hp : Present (entry m r (vpn va))) (ht : target (entry m r (vpn va)) = pa2kva pa)
    (ho : own (pa2kva pa) = .data r (vpn va)) (hunlisted : Unlisted m own r (vpn va))
    (h : addToActiveList pa va pid r m = some (ok, m')) :
    ∃ own' X, SpaceOk m' own' ∧ Evicts X m own m' own' ∧ .data r (vpn va) ∉ X ∧
      (ok = false → ∀ swapId < swapMaxPages, m.swapPageStatus swapId = true) := by
  have hvv : getPte (vpn va * 4096) r m = some a := by
    rw [← getPte_vpn]
    exact ha
  unfold addToActiveList at h
  dsimp only at h
  split at h
  · -- the list is not full
    split at h
    · cases h
      exact ⟨own, ∅, S, evicts_of_frame S (Frame.refl _ _ _) (Untouched.refl _ _ _) rfl rfl rfl rfl rfl, id,
        nofun⟩
    · rename_i idx hslot
      obtain ⟨j, -, hj, hif, hbefore⟩ := scan_eq_some.1 hslot
      split_ifs at hif with hfree
      obtain rfl := Option.some.inj hif
      have hpte : getPte va r { m with activePageCount := m.activePageCount + 1 } = some a := (getPte_mem rfl va r).trans ha
      rw [hpte] at h
      obtain ⟨rfl, rfl⟩ := Prod.mk.inj (Option.some.inj h)
      let e : ActivePage := ⟨pa2kva pa, a, va, pid, true⟩
      have S' : SpaceOk (recordActive j e m) own :=
        S.record rfl (by omega) (fun i hi => by
          have := hbefore i (Nat.zero_le _) hi
          split_ifs at this with hvalid
          exact hvalid) hfree ⟨hr, hv, hvv, hp, ht, ho⟩ hunlisted
      refine ⟨own, ∅, S', evicts_of_frame S (frame_of_mem _ _ rfl) (fun _ _ _ _ _ => rfl) rfl rfl rfl rfl rfl, id,
        nofun⟩
  · -- the list is full
    rename_i hfull
    obtain ⟨⟨res, m1⟩, hout, hres⟩ := Option.map_eq_some_iff.1 h
    have hvalid := S.active.all_valid hfull
    cases res with
    | none =>
      obtain ⟨rfl, rfl⟩ := Prod.mk.inj hres
      obtain ⟨S1, F1, U1, hsd, hstart, hcurr, -, hstatus, hshm, hswap⟩ := swapOut_none S hout
      exact ⟨own, ∅, S1, evicts_of_frame S F1 U1 hsd hstart hcurr hstatus hshm, id, fun _ => hswap⟩
    | some idx =>
      obtain ⟨x, r1, v1, swapId, O⟩ := swapOut_some S hout
      have hne : Owner.data r (vpn va) ∉ ({.data r1 v1} : Set Owner) := fun hm => by
        cases hm
        exact hunlisted idx O.index (by rw [O.page]; exact O.valid) (by rw [O.page]; exact O.listed)
      have hpte := O.frame.pte hr hv hne hvv
      have hlike := O.frame.entry hr hv hne
      have hl : Listed (dropActive idx m1) (Function.update own x.kva .free) ⟨pa2kva pa, a, va, pid, true⟩ r (vpn va) := by
        refine ⟨(O.frame.root r).2 hr, hv, hpte, hlike.present.2 hp, hlike.target.trans ht, ?_⟩
        exact (O.frame.owner _ (by rw [ho]; trivial) (by rw [ho]; exact hne)).trans ho
      have hpage {i : ℕ} (hi : i ≠ idx) : (dropActive idx m1).activePages i = m.activePages i := by
        rw [dropActive_of_ne hi, O.pages]
      have hunl : Unlisted (dropActive idx m1) (Function.update own x.kva .free) r (vpn va) := by
        intro i hi hv' hl'
        obtain ⟨hii, -⟩ := dropActive_valid.1 hv'
        rw [hpage hii] at hl'
        obtain ⟨r', v', hold⟩ := S.active.listed i hi (hvalid i hi)
        have hk : (m.activePages i).kva = pa2kva pa := hl'.kva.symm.trans hl.kva
        have ho' := hold.owner
        rw [hk, ho] at ho'
        cases ho'
        exact hunlisted i hi (hvalid i hi) hold
      have S' := O.space.record rfl O.index (fun j hj => dropActive_valid.2 ⟨by omega, by
        rw [O.pages]
        exact hvalid j (hj.trans O.index)⟩) (fun h => (dropActive_valid.1 h).1 rfl) hl hunl
      have hrec : recordActive idx ⟨pa2kva pa, a, va, pid, true⟩ (dropActive idx m1) =
          { m1 with activePages := Function.update m1.activePages idx ⟨pa2kva pa, a, va, pid, true⟩ } := by
        unfold recordActive dropActive
        simp only [Function.update_idem, sub_add_cancel]
      rw [hrec] at S'
      rw [← getPte_vpn] at hpte
      dsimp only at hres
      rw [hpte] at hres
      obtain ⟨rfl, rfl⟩ := Prod.mk.inj hres
      have E := O.evicts S
      have hentry (r' v' : ℕ) : entry { m1 with
          activePages := Function.update m1.activePages idx ⟨pa2kva pa, a, va, pid, true⟩ } r' v' = entry m1 r' v' :=
        entry_mem rfl r' v'
      refine ⟨_, _, S', ⟨E.frame.trans (frame_of_mem _ _ rfl), E.untouched, E.only, fun hr hv hm => ?_,
        fun hr hv off hoff => ?_, E.curr, E.owners, E.freed, fun s => ?_, E.shm⟩, hne, nofun⟩
      · rw [hentry]
        exact E.swapped hr hv hm
      · rw [← E.contents hr hv off hoff]
        unfold pageOf
        rw [hentry]
        rfl
      · exact E.slots s

end add

end RiscvKernel.Mm
