import RiscvKernel.Mm.Swap

/-!
# The count of active pages

`active_page_count` is kept by hand. `remove_from_active_list` takes the first entry with the address,
also one that is not valid any more, and counts it down all the same. In the histories in which it meets
valid entries only, the count is the number of valid entries (`reach_counted`).
-/

namespace RiscvKernel.Mm

open Lib

/-! ## Histories -/

/-- The calls, and whatever the rest of the kernel does between them. -/
inductive ActiveCall
  | add (pa va : ℕ) (pid : ℤ) (pgdir : ℕ)
  | swapOut
  | remove (kva : ℕ)
  | other (m : Memory)

/-- The memory after a call that returns. `swap_out` asserts that the list is full. -/
def activeStep (m : Memory) : ActiveCall → Option Memory
  | .add pa va pid pgdir => (addToActiveList pa va pid pgdir m).map Prod.snd
  | .swapOut => if m.activePageCount < maxAllowablePages then none else (swapOut m).map Prod.snd
  | .remove kva => removeFromActiveList kva m
  | .other m' => some { m' with
      activePages := m.activePages
      activePageCount := m.activePageCount
      clockHead := m.clockHead }

/-- The states that calls which meet `Ok` lead to. -/
inductive ActiveReach (Ok : Memory → ActiveCall → Prop) (m0 : Memory) : Memory → Prop
  | start : ActiveReach Ok m0 m0
  | step {m m' : Memory} {c : ActiveCall} (h : ActiveReach Ok m0 m) (hok : Ok m c)
      (hs : activeStep m c = some m') : ActiveReach Ok m0 m'

/-- After `init_swap`. -/
structure ActiveStart (m : Memory) : Prop where
  valid : ∀ i < maxAllowablePages, (m.activePages i).valid = false
  count : m.activePageCount = 0
  clock : m.clockHead < maxAllowablePages

/-- The number of valid entries. -/
def validCount (m : Memory) : ℕ :=
  ((Finset.range maxAllowablePages).filter fun i => (m.activePages i).valid).card

/-- The count is right, and `add_to_active_list` records the page when it returns and there is an
entry. -/
structure ActiveCounted (m : Memory) : Prop where
  count : m.activePageCount = validCount m
  range : 0 ≤ m.activePageCount ∧ m.activePageCount ≤ maxAllowablePages
  recorded : ∀ pa va pid pgdir m', addToActiveList pa va pid pgdir m = some (true, m') →
    ∀ pte, getPte va pgdir m' = some pte →
      ∃ i < maxAllowablePages, m'.activePages i = ⟨pa2kva pa, pte, va, pid, true⟩

/-- The first entry with the address is valid, if there is one. -/
def FirstValid (m : Memory) : ActiveCall → Prop
  | .remove kva => ∀ i < maxAllowablePages, (m.activePages i).kva = kva →
      (∀ j < i, (m.activePages j).kva ≠ kva) → (m.activePages i).valid = true
  | _ => True

instance (m : Memory) : ∀ c, Decidable (FirstValid m c)
  | .add .. => isTrue trivial
  | .swapOut => isTrue trivial
  | .remove _ => inferInstanceAs (Decidable (∀ i < _, _))
  | .other _ => isTrue trivial

/-! ## Counting -/

variable {m m' : Memory} {idx kva : ℕ}

theorem validCount_le (m : Memory) : validCount m ≤ maxAllowablePages :=
  (Finset.card_filter_le _ _).trans_eq (Finset.card_range _)

theorem validCount_congr (h : ∀ i < maxAllowablePages, (m'.activePages i).valid = (m.activePages i).valid) :
    validCount m' = validCount m :=
  congrArg Finset.card (Finset.filter_congr fun i hi => by rw [h i (Finset.mem_range.1 hi)])

/-- An entry becomes valid. -/
theorem validCount_set (hidx : idx < maxAllowablePages) (hold : (m.activePages idx).valid = false)
    (hnew : (m'.activePages idx).valid = true)
    (hother : ∀ i, i ≠ idx → (m'.activePages i).valid = (m.activePages i).valid) :
    validCount m' = validCount m + 1 := by
  have hins : ((Finset.range maxAllowablePages).filter fun i => (m'.activePages i).valid) =
      insert idx ((Finset.range maxAllowablePages).filter fun i => (m.activePages i).valid) := by
    ext i
    simp only [Finset.mem_insert, Finset.mem_filter, Finset.mem_range]
    by_cases hi : i = idx
    · subst hi
      exact iff_of_true ⟨hidx, hnew⟩ (Or.inl rfl)
    · rw [hother i hi, or_iff_right hi]
  have hnot : idx ∉ (Finset.range maxAllowablePages).filter fun i => (m.activePages i).valid := fun h => by
    have := (Finset.mem_filter.1 h).2
    rw [hold] at this
    cases this
  unfold validCount
  rw [hins, Finset.card_insert_of_notMem hnot]

/-- There is a free entry when not all are valid. -/
theorem exists_free (h : validCount m < maxAllowablePages) :
    ∃ idx, getFreeActivePageSlot m = some idx ∧ idx < maxAllowablePages ∧
      (m.activePages idx).valid = false := by
  cases hs : getFreeActivePageSlot m with
  | none =>
    refine absurd h (not_lt.2 (le_of_eq ?_))
    have hall : ∀ i ∈ Finset.range maxAllowablePages, (m.activePages i).valid = true := fun i hi => by
      have h1 := scan_eq_none.1 hs i (Nat.zero_le _) (by have := Finset.mem_range.1 hi; omega)
      split_ifs at h1 with hv
      exact hv
    unfold validCount
    rw [Finset.filter_true_of_mem hall, Finset.card_range]
  | some idx =>
    obtain ⟨j, -, hj, hif, -⟩ := scan_eq_some.1 hs
    split_ifs at hif with hv
    obtain rfl := Option.some.inj hif
    exact ⟨j, rfl, by omega, by simpa using hv⟩

/-- The count is right and the hand of the clock is in the table. -/
structure CountInv (m : Memory) : Prop where
  count : m.activePageCount = validCount m
  clock : m.clockHead < maxAllowablePages

theorem CountInv.range (h : CountInv m) : 0 ≤ m.activePageCount ∧ m.activePageCount ≤ maxAllowablePages := by
  have := validCount_le m
  have := h.count
  omega

/-! ## The calls -/

/-- The search of `swap_out` stops at a valid entry and does not change the table. -/
theorem clockScan_counted {fuel : ℕ} (hc : m.clockHead < maxAllowablePages) (h : clockScan fuel m = some m') :
    m'.activePages = m.activePages ∧ m'.activePageCount = m.activePageCount ∧
      m'.clockHead < maxAllowablePages ∧ (m'.activePages m'.clockHead).valid = true := by
  induction fuel generalizing m with
  | zero => cases h
  | succ fuel ih =>
    rw [clockScan, Option.bind_eq_some_iff] at h
    obtain ⟨i, hi, h⟩ := h
    obtain ⟨hlt, hv⟩ := nextValid_spec hi hc
    dsimp only at h
    split at h
    · obtain ⟨h1, h2, h3, h4⟩ := ih (Nat.mod_lt _ (by decide)) h
      exact ⟨h1, h2, h3, h4⟩
    · cases h
      exact ⟨rfl, rfl, hlt, hv⟩

/-- `swap_out` does not change the table; the entry that it frees is valid. -/
theorem swapOut_counted {r : Option ℕ} (hc : m.clockHead < maxAllowablePages) (h : swapOut m = some (r, m')) :
    m'.activePages = m.activePages ∧ m'.activePageCount = m.activePageCount ∧
      m'.clockHead < maxAllowablePages ∧
      ∀ idx, r = some idx → idx < maxAllowablePages ∧ (m'.activePages idx).valid = true := by
  obtain ⟨m1, hscan, hm⟩ := Option.map_eq_some_iff.1 h
  obtain ⟨h1, h2, h3, h4⟩ := clockScan_counted hc hscan
  dsimp only at hm
  cases hget : getFreeSwapId m1 with
  | none =>
    rw [hget] at hm
    cases hm
    exact ⟨h1, h2, h3, nofun⟩
  | some x =>
    obtain ⟨swapId, m2⟩ := x
    obtain ⟨i, -, he⟩ := Option.map_eq_some_iff.1 hget
    obtain ⟨rfl, rfl⟩ := Prod.mk.inj he
    rw [hget] at hm
    dsimp only at hm
    obtain ⟨rfl, rfl⟩ := Prod.mk.inj hm
    obtain ⟨-, f1, f2, f3, -⟩ := freePage_rest (m1.activePages m1.clockHead).kva
      (writePte (m1.activePages m1.clockHead).pte (i * 2 ^ 10 ||| pageSwap)
        (swapWrite (m1.activePages m1.clockHead).kva i
          { m1 with swapPageStatus := Function.update m1.swapPageStatus i true }))
    refine ⟨f1.trans h1, f2.trans h2, Nat.mod_lt _ (by decide), fun idx hidx => ?_⟩
    obtain rfl := Option.some.inj hidx
    rw [f3]
    exact ⟨h3, by rw [f1]; exact h4⟩

/-- The memory with another entry. -/
def Memory.withEntry (m : Memory) (idx : ℕ) (e : ActivePage) : Memory :=
  { m with activePages := Function.update m.activePages idx e }

@[simp] theorem withEntry_self (e : ActivePage) : (m.withEntry idx e).activePages idx = e := Function.update_self ..

theorem withEntry_ne {i : ℕ} (hi : i ≠ idx) (e : ActivePage) :
    (m.withEntry idx e).activePages i = m.activePages i := Function.update_of_ne hi ..

/-- The count of valid entries when a new entry is written, whatever was there. -/
theorem validCount_withEntry (hidx : idx < maxAllowablePages) (e e' : ActivePage) (he : e.valid = false)
    (he' : e'.valid = true) : validCount (m.withEntry idx e') = validCount (m.withEntry idx e) + 1 := by
  refine validCount_set hidx ?_ ?_ fun i hi => ?_
  · rw [withEntry_self, he]
  · rw [withEntry_self, he']
  · rw [withEntry_ne hi, withEntry_ne hi]

/-- An entry is written: it is valid if the address has an entry in the page tables. -/
theorem record_counted {pa va pgdir : ℕ} {pid : ℤ} {b : Bool}
    (hidx : idx < maxAllowablePages) (hc : m.clockHead < maxAllowablePages)
    (hcount : m.activePageCount = validCount (m.withEntry idx ⟨0, 0, 0, 0, true⟩))
    (h : (match getPte va pgdir m with
      | none =>
        (true, { m.withEntry idx ⟨pa2kva pa, (m.activePages idx).pte, va, pid, false⟩ with
          activePageCount := m.activePageCount - 1 })
      | some pte => (true, m.withEntry idx ⟨pa2kva pa, pte, va, pid, true⟩)) = (b, m')) :
    CountInv m' ∧ ∀ pte, getPte va pgdir m' = some pte →
      m'.activePages idx = ⟨pa2kva pa, pte, va, pid, true⟩ := by
  cases hp : getPte va pgdir m with
  | none =>
    rw [hp] at h
    obtain ⟨-, rfl⟩ := Prod.mk.inj h
    refine ⟨⟨?_, hc⟩, fun pte hpte => ?_⟩
    · rw [validCount_withEntry hidx ⟨pa2kva pa, (m.activePages idx).pte, va, pid, false⟩ _ rfl rfl] at hcount
      show m.activePageCount - 1 = _
      rw [hcount, Nat.cast_add_one, add_sub_cancel_right]
      rfl
    · have hsame : getPte va pgdir m = some pte := hpte
      rw [hp] at hsame
      cases hsame
  | some a =>
    rw [hp] at h
    obtain ⟨-, rfl⟩ := Prod.mk.inj h
    refine ⟨⟨hcount.trans (congrArg Nat.cast ?_), hc⟩, fun pte hpte => ?_⟩
    · exact (validCount_withEntry hidx ⟨0, 0, 0, 0, false⟩ ⟨0, 0, 0, 0, true⟩ rfl rfl).trans
        (validCount_withEntry hidx _ ⟨pa2kva pa, a, va, pid, true⟩ rfl rfl).symm
    · have hsame : getPte va pgdir m = some pte := hpte
      rw [hp] at hsame
      cases hsame
      exact Function.update_self ..

/-- **add_to_active_list** keeps the count and records the page. -/
theorem CountInv.add {pa va pgdir : ℕ} {pid : ℤ} {b : Bool} (H : CountInv m)
    (h : addToActiveList pa va pid pgdir m = some (b, m')) :
    CountInv m' ∧ (b = true → ∀ pte, getPte va pgdir m' = some pte →
      ∃ i < maxAllowablePages, m'.activePages i = ⟨pa2kva pa, pte, va, pid, true⟩) := by
  have hcount := H.count
  unfold addToActiveList at h
  dsimp only at h
  split at h
  · -- there is a free entry
    rename_i hlt
    obtain ⟨idx, hs, hidx, hfree⟩ := exists_free (m := m) (by omega)
    rw [hs] at h
    have hset : validCount (m.withEntry idx ⟨0, 0, 0, 0, true⟩) = validCount m + 1 :=
      validCount_set hidx hfree (by rw [withEntry_self]) fun i hi => by rw [withEntry_ne hi]
    have hnew : m.activePageCount + 1 = validCount (m.withEntry idx ⟨0, 0, 0, 0, true⟩) := by
      rw [hset, hcount, Nat.cast_add_one]
    obtain ⟨h1, h2⟩ :=
      record_counted (m := { m with activePageCount := m.activePageCount + 1 }) hidx H.clock hnew (Option.some.inj h)
    exact ⟨h1, fun _ pte hpte => ⟨idx, hidx, h2 pte hpte⟩⟩
  · obtain ⟨⟨r, m1⟩, hout, hr⟩ := Option.map_eq_some_iff.1 h
    obtain ⟨h1, h2, h3, h4⟩ := swapOut_counted H.clock hout
    have hinv : CountInv m1 := ⟨by
      rw [h2, hcount]
      exact congrArg Nat.cast (validCount_congr fun i _ => by rw [h1]).symm, h3⟩
    cases r with
    | none =>
      obtain ⟨rfl, rfl⟩ := Prod.mk.inj hr
      exact ⟨hinv, nofun⟩
    | some idx =>
      obtain ⟨hidx, hv⟩ := h4 idx rfl
      have hsame : m1.activePageCount = validCount (m1.withEntry idx ⟨0, 0, 0, 0, true⟩) := by
        rw [hinv.count]
        refine congrArg Nat.cast (validCount_congr fun i _ => ?_).symm
        by_cases hi : i = idx
        · rw [hi, hv, withEntry_self]
        · rw [withEntry_ne hi]
      obtain ⟨h5, h6⟩ := record_counted hidx h3 hsame hr
      exact ⟨h5, fun _ pte hpte => ⟨idx, hidx, h6 pte hpte⟩⟩

/-- What **remove_from_active_list** does to the count: nothing when no entry has the address, otherwise
the first entry with the address becomes invalid and the count goes down. -/
theorem remove_cases (hc : m.clockHead < maxAllowablePages) (h : removeFromActiveList kva m = some m') :
    m'.clockHead < maxAllowablePages ∧
    (((∀ i < maxAllowablePages, (m.activePages i).kva ≠ kva) ∧ m' = m) ∨
      ∃ idx < maxAllowablePages, (m.activePages idx).kva = kva ∧ (∀ j < idx, (m.activePages j).kva ≠ kva) ∧
        m'.activePages = Function.update m.activePages idx { m.activePages idx with valid := false } ∧
        m'.activePageCount = m.activePageCount - 1) := by
  rcases removeFromActiveList_cases kva m with ⟨hno, heq⟩ | ⟨j, hj, hk, hfirst, heq⟩
  · rw [heq] at h
    cases h
    exact ⟨hc, Or.inl ⟨hno, rfl⟩⟩
  · rw [heq] at h
    split at h
    · obtain ⟨c, hnv, rfl⟩ := Option.map_eq_some_iff.1 h
      exact ⟨(nextValid_spec hnv hc).1, Or.inr ⟨j, hj, hk, hfirst, rfl, rfl⟩⟩
    · cases h
      exact ⟨hc, Or.inr ⟨j, hj, hk, hfirst, rfl, rfl⟩⟩

/-- The count stays right exactly when the first entry with the address is valid, or there is none. -/
theorem CountInv.remove_iff (H : CountInv m) (h : removeFromActiveList kva m = some m') :
    CountInv m' ↔ FirstValid m (.remove kva) := by
  obtain ⟨hc, ⟨hno, rfl⟩ | ⟨idx, hidx, hk, hfirst, hpages, hcount⟩⟩ := remove_cases H.clock h
  · exact iff_of_true H fun i hi hki => absurd hki (hno i hi)
  have hself : (m'.activePages idx).valid = false := by rw [hpages, Function.update_self]
  have hother : ∀ i, i ≠ idx → (m.activePages i).valid = (m'.activePages i).valid := fun i hi => by
    rw [hpages, Function.update_of_ne hi]
  have hFV : FirstValid m (.remove kva) ↔ (m.activePages idx).valid = true := by
    refine ⟨fun hf => hf idx hidx hk hfirst, fun hv i hi hki hbefore => ?_⟩
    rcases Nat.lt_trichotomy i idx with hlt | rfl | hgt
    · exact absurd hki (hfirst i hlt)
    · exact hv
    · exact absurd hk (hbefore idx hgt)
  have hH := H.count
  rw [hFV]
  cases hv : (m.activePages idx).valid with
  | true =>
    have := validCount_set hidx hself hv hother
    exact iff_of_true ⟨by omega, hc⟩ rfl
  | false =>
    -- the entry has not been counted
    have hsame : validCount m' = validCount m := validCount_congr fun i _ => by
      by_cases hi : i = idx
      · rw [hi, hself, hv]
      · exact (hother i hi).symm
    refine iff_of_false (fun H' => ?_) nofun
    have := H'.count
    omega

theorem CountInv.step {c : ActiveCall} (H : CountInv m) (hok : FirstValid m c) (hs : activeStep m c = some m') :
    CountInv m' := by
  cases c with
  | add pa va pid pgdir =>
    obtain ⟨⟨b, m1⟩, h, rfl⟩ := Option.map_eq_some_iff.1 hs
    exact (H.add h).1
  | swapOut =>
    rw [activeStep] at hs
    split_ifs at hs
    obtain ⟨⟨r, m1⟩, h, rfl⟩ := Option.map_eq_some_iff.1 hs
    obtain ⟨h1, h2, h3, -⟩ := swapOut_counted H.clock h
    exact ⟨by
      rw [h2, H.count]
      exact congrArg Nat.cast (validCount_congr fun i _ => by rw [h1]).symm, h3⟩
  | remove kva => exact (H.remove_iff hs).2 hok
  | other m1 =>
    cases hs
    exact ⟨H.count, H.clock⟩

/-- **The count of active pages is right** in every state reached by calls that remove valid entries
only. -/
theorem reach_counted {m0 m : Memory} (h0 : ActiveStart m0) (h : ActiveReach FirstValid m0 m) :
    ActiveCounted m := by
  have H : CountInv m := by
    induction h with
    | start =>
      refine ⟨?_, h0.clock⟩
      have : validCount m0 = 0 := by
        unfold validCount
        rw [Finset.card_eq_zero, Finset.filter_eq_empty_iff]
        intro i hi
        rw [h0.valid i (Finset.mem_range.1 hi)]
        exact nofun
      rw [h0.count, this]
      rfl
    | step _ hok hs ih => exact ih.step hok hs
  exact ⟨H.count, H.range, fun pa va pid pgdir m' hadd => (H.add hadd).2 rfl⟩

/-- The state after a call, the state itself for one that does not return. -/
def activeNext (m : Memory) (c : ActiveCall) : Memory := (activeStep m c).getD m

theorem ActiveReach.next {Ok : Memory → ActiveCall → Prop} {m0 : Memory} {c : ActiveCall}
    (h : ActiveReach Ok m0 m) (hok : Ok m c) (hs : (activeStep m c).isSome) :
    ActiveReach Ok m0 (activeNext m c) := by
  obtain ⟨m', hm'⟩ := Option.isSome_iff_exists.1 hs
  have hn : activeNext m c = m' := by rw [activeNext, hm', Option.getD_some]
  rw [hn]
  exact h.step hok hm'

/-- A page is mapped in an empty address space. -/
def oneMapped : Memory := mapPage 0x10000 0x52100000 (pa2kva pgdirPa) 0x1f (clearPage (pa2kva pgdirPa) freshMemory)

/-- The page is recorded. -/
def oneActive : Memory :=
  activeNext (activeNext freshMemory (.other oneMapped)) (.add 0x52100000 0x10000 2 (pa2kva pgdirPa))

theorem oneActive_reach (Ok : Memory → ActiveCall → Prop) (h1 : Ok freshMemory (.other oneMapped))
    (h2 : Ok (activeNext freshMemory (.other oneMapped)) (.add 0x52100000 0x10000 2 (pa2kva pgdirPa))) :
    ActiveReach Ok freshMemory oneActive :=
  (ActiveReach.start.next h1 (by decide +kernel)).next h2 (by decide +kernel)

theorem activeStart_fresh : ActiveStart freshMemory := ⟨fun _ _ => rfl, rfl, by decide⟩

/-- For a page that is recorded and removed. -/
theorem reach_counted_one : ActiveCounted (activeNext oneActive (.remove (pa2kva 0x52100000))) :=
  reach_counted activeStart_fresh
    ((oneActive_reach FirstValid trivial trivial).next (by decide +kernel) (by decide +kernel))

/-- The page is removed twice: the count is -1. -/
theorem remove_twice : ¬ ∀ m0 m, ActiveStart m0 → ActiveReach (fun _ _ => True) m0 m → ActiveCounted m := by
  intro hall
  have hreach := ((oneActive_reach (fun _ _ => True) trivial trivial).next trivial
    (by decide +kernel : (activeStep oneActive (.remove (pa2kva 0x52100000))).isSome)).next trivial
    (by decide +kernel : (activeStep (activeNext oneActive (.remove (pa2kva 0x52100000)))
      (.remove (pa2kva 0x52100000))).isSome)
  have hcount := (hall _ _ activeStart_fresh hreach).range.1
  exact absurd hcount (by decide +kernel)

end RiscvKernel.Mm
