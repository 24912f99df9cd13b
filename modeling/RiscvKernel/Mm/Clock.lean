import RiscvKernel.Lib.Clock
import RiscvKernel.Mm.Swap

/-!
# The second chance

`swap_out` for a table of any size `N` (`MAX_ALLOWABLE_PAGES` is a constant that a build chooses). Its
search is the hand of a clock whose marks are the accessed bits: `clockScanN_sim` is the simulation,
`swapOutN_secondChance` says which entry is the victim and what the call changes.
-/

namespace RiscvKernel.Mm

open Lib

/-- `while (!active_pages[clock_head].valid)` in a table of `N` entries. -/
def nextValidN (N : ℕ) (m : Memory) : ℕ → ℕ → Option ℕ
  | 0, _ => none
  | fuel + 1, i => if (m.activePages i).valid then some i else nextValidN N m fuel ((i + 1) % N)

/-- The search of `swap_out` in a table of `N` entries. -/
def clockScanN (N : ℕ) : ℕ → Memory → Option Memory
  | 0, _ => none
  | fuel + 1, m =>
    (nextValidN N m (N + 1) m.clockHead).bind fun i =>
      let m := { m with clockHead := i }
      let pte := (m.activePages i).pte
      if getAttribute (readPte m pte) pageAccessed ≠ 0 then
        let m := writePte pte (setAttribute (readPte m pte)
          (getAttribute (readPte m pte) 0x3ff &&& (0xffffffffffffffff - pageAccessed))) m
        clockScanN N fuel { m with clockHead := (m.clockHead + 1) % N }
      else some m

/-- `swap_out` in a table of `N` entries. It asserts that the table is full. -/
def swapOutN (N : ℕ) (m : Memory) : Option (Option ℕ × Memory) :=
  if m.activePageCount < N then none
  else
    (clockScanN N (N + 1) m).map fun m =>
      let victim := m.activePages m.clockHead
      match getFreeSwapId m with
      | none => (none, m)
      | some (swapId, m) =>
        let m := swapWrite victim.kva swapId m
        let m := writePte victim.pte (swapId * 2 ^ 10 ||| pageSwap) m
        let m := freePage victim.kva m
        (some m.clockHead, { m with clockHead := (m.clockHead + 1) % N })

section sizes
variable {m : Memory}

theorem nextValidN_eq (fuel i : ℕ) : nextValidN maxAllowablePages m fuel i = nextValid m fuel i := by
  induction fuel generalizing i with
  | zero => rfl
  | succ fuel ih => rw [nextValidN, nextValid, ih]

theorem clockScanN_eq (fuel : ℕ) (m : Memory) : clockScanN maxAllowablePages fuel m = clockScan fuel m := by
  induction fuel generalizing m with
  | zero => rfl
  | succ fuel ih => simp only [clockScanN, clockScan, nextValidN_eq, ih]

/-- The table of the build. -/
theorem swapOutN_eq (h : (maxAllowablePages : ℤ) ≤ m.activePageCount) :
    swapOutN maxAllowablePages m = swapOut m := by
  rw [swapOutN, if_neg (by omega), clockScanN_eq]
  rfl

end sizes

/-! ## Accessed bits -/

/-- The accessed bit of an entry of the table. -/
def accessed (m : Memory) (i : ℕ) : Bool := (readPte m (m.activePages i).pte).testBit 6

theorem getAttribute_accessed (e : ℕ) : getAttribute e pageAccessed ≠ 0 ↔ e.testBit 6 = true := by
  have hbit (b : ℕ) : (getAttribute e pageAccessed).testBit b = (e.testBit b && decide (6 = b)) :=
    (Nat.testBit_and e (2 ^ 6) b).trans (by rw [Nat.testBit_two_pow])
  constructor
  · intro h
    by_contra hclear
    refine h (Nat.eq_of_testBit_eq fun b => ?_)
    rw [hbit, Nat.zero_testBit]
    by_cases hb : 6 = b
    · rw [← hb, Bool.eq_false_of_not_eq_true hclear, Bool.false_and]
    · rw [decide_eq_false hb, Bool.and_false]
  · intro h h0
    have h1 := hbit 6
    rw [h0, h, Nat.zero_testBit] at h1
    cases h1

/-- `set_attribute` clears bit 6 and no other. -/
theorem testBit_unaccessed (e b : ℕ) : (unaccessed e).testBit b = (e.testBit b && decide (b ≠ 6)) := by
  have hflags : getAttribute e 0x3ff = e % 2 ^ 10 := Nat.and_two_pow_sub_one_eq_mod e 10
  have hmask (b : ℕ) (hb : b < 10) : Nat.testBit (0xffffffffffffffff - pageAccessed) b = decide (b ≠ 6) := by
    interval_cases b <;> decide
  unfold unaccessed setAttribute
  rw [hflags, Nat.testBit_or, Nat.testBit_and, Nat.testBit_mod_two_pow, Nat.testBit_mul_two_pow,
    Nat.testBit_div_two_pow]
  by_cases hb : b < 10
  · rw [hmask b hb]
    simp [hb]
  · have hne : b ≠ 6 := by omega
    simp [hb, hne, show b - 10 + 10 = b by omega, show 10 ≤ b by omega]

theorem unaccessed_of_clear {e : ℕ} (h : e.testBit 6 = false) : unaccessed e = e := by
  refine Nat.eq_of_testBit_eq fun b => ?_
  rw [testBit_unaccessed]
  by_cases hb : b = 6
  · rw [hb, h, Bool.false_and]
  · rw [decide_eq_true hb, Bool.and_true]

/-! ## The table -/

/-- The table is full of valid entries: entries of the page tables that do not overlap, whose pages hold
none of them. -/
structure ClockTable (N : ℕ) (m : Memory) : Prop where
  pos : 0 < N
  valid : ∀ i < N, (m.activePages i).valid = true
  count : N ≤ m.activePageCount
  clock : m.clockHead < N
  aligned : ∀ i < N, (m.activePages i).pte % 8 = 0
  distinct : ∀ i < N, ∀ j < N, i ≠ j → (m.activePages i).pte ≠ (m.activePages j).pte
  data : ∀ i < N, ∀ j < N,
    (m.activePages j).pte + 8 ≤ (m.activePages i).kva ∨ (m.activePages i).kva + 8 ≤ (m.activePages j).pte

theorem ClockTable.apart {N : ℕ} {m : Memory} (T : ClockTable N m) {i j : ℕ} (hi : i < N) (hj : j < N) (hne : i ≠ j) :
    (m.activePages j).pte + 8 ≤ (m.activePages i).pte ∨ (m.activePages i).pte + 8 ≤ (m.activePages j).pte := by
  have h1 := T.aligned i hi
  have h2 := T.aligned j hj
  have h3 := T.distinct i hi j hj hne
  omega

/-- The state `m` of the search that began in `m0`, when the marks are `r`. -/
structure ClockSim (N : ℕ) (m0 m : Memory) (r : ℕ → Bool) : Prop where
  rest : m = { m0 with mem := m.mem, clockHead := m.clockHead }
  marks : ∀ i < N, r i = true → accessed m0 i = true
  entry : ∀ i < N, readPte m (m0.activePages i).pte =
    if r i then readPte m0 (m0.activePages i).pte else unaccessed (readPte m0 (m0.activePages i).pte)
  outside : ∀ a, (∀ i < N, a < (m0.activePages i).pte ∨ (m0.activePages i).pte + 8 ≤ a) → m.mem a = m0.mem a

section sim
variable {N i fuel : ℕ} {m0 m : Memory} {r r' : ℕ → Bool} {h' : ℕ}

theorem ClockSim.start (m0 : Memory) : ClockSim N m0 m0 (accessed m0) := by
  refine ⟨rfl, fun _ _ h => h, fun i _ => ?_, fun _ _ => rfl⟩
  split
  · rfl
  · rename_i h
    exact (unaccessed_of_clear (by simpa [accessed] using h)).symm

/-- The code sees the marks. -/
theorem ClockSim.seen (S : ClockSim N m0 m r) (hi : i < N) :
    getAttribute (readPte m (m0.activePages i).pte) pageAccessed ≠ 0 ↔ r i = true := by
  rw [getAttribute_accessed, S.entry i hi]
  cases hr : r i with
  | true =>
    rw [if_pos rfl]
    exact iff_of_true (S.marks i hi hr) rfl
  | false =>
    rw [if_neg Bool.false_ne_true, testBit_unaccessed]
    simp

/-- A mark is cleared. -/
theorem ClockSim.clear (T : ClockTable N m0) (S : ClockSim N m0 m r) (hi : i < N) (c : ℕ) :
    ClockSim N m0 { writePte (m0.activePages i).pte (unaccessed (readPte m (m0.activePages i).pte)) m with clockHead := c }
      (Function.update r i false) := by
  refine ⟨?_, fun j hj hr => ?_, fun j hj => ?_, fun a ha => ?_⟩
  · rw [S.rest]
    rfl
  · by_cases hji : j = i
    · rw [hji, Function.update_self] at hr
      cases hr
    · rw [Function.update_of_ne hji] at hr
      exact S.marks j hj hr
  · by_cases hji : j = i
    · subst hji
      rw [Function.update_self, if_neg Bool.false_ne_true]
      refine (readPte_writePte_self m _ (unaccessed_lt (readPte_lt m _))).trans ?_
      rw [S.entry j hj]
      split
      · rfl
      · exact unaccessed_of_clear (by rw [testBit_unaccessed]; simp)
    · rw [Function.update_of_ne hji, ← S.entry j hj]
      exact readPte_writePte_of_disjoint (T.apart hi hj (Ne.symm hji))
  · rw [← S.outside a ha]
    exact putLe_out (ha i hi)

/-- One round of the search at a valid entry. -/
theorem clockScanN_succ (fuel : ℕ) (hv : (m.activePages m.clockHead).valid = true) :
    clockScanN N (fuel + 1) m =
      if getAttribute (readPte m (m.activePages m.clockHead).pte) pageAccessed ≠ 0 then
        clockScanN N fuel { writePte (m.activePages m.clockHead).pte
          (unaccessed (readPte m (m.activePages m.clockHead).pte)) m with clockHead := (m.clockHead + 1) % N }
      else some m := by
  rw [clockScanN, nextValidN, if_pos hv]
  rfl

/-- **The search of `swap_out` is the hand of a clock.** -/
theorem clockScanN_sim (T : ClockTable N m0) (S : ClockSim N m0 m r) (hc : m.clockHead < N)
    (hs : sweep N fuel r m.clockHead = some (r', h')) :
    ∃ m', clockScanN N fuel m = some m' ∧ ClockSim N m0 m' r' ∧ m'.clockHead = h' := by
  induction fuel generalizing m r with
  | zero => cases hs
  | succ fuel ih =>
    have hpages : m.activePages = m0.activePages := by rw [S.rest]
    have hseen := S.seen hc
    rw [sweep] at hs
    rw [clockScanN_succ fuel (by rw [hpages]; exact T.valid _ hc), hpages]
    split at hs
    · rename_i hr
      rw [if_pos (hseen.2 hr)]
      exact ih (S.clear T hc _) (Nat.mod_lt _ T.pos) hs
    · rename_i hr
      rw [if_neg fun h => hr (hseen.1 h)]
      obtain ⟨rfl, rfl⟩ := Prod.mk.inj (Option.some.inj hs)
      exact ⟨m, rfl, S, rfl⟩

end sim

/-! ## What swap_out does -/

/-- The search has passed over `k` entries: their accessed bits are clear, nothing else has changed. -/
structure ClockPhase (N k : ℕ) (m m1 : Memory) : Prop where
  clock : m1.clockHead = (m.clockHead + k) % N
  rest : m1 = { m with mem := m1.mem, clockHead := m1.clockHead }
  bits : ∀ i < N, ∀ b, (readPte m1 (m.activePages i).pte).testBit b =
    ((readPte m (m.activePages i).pte).testBit b && !decide (b = 6 ∧ Passed N m.clockHead k i))
  outside : ∀ a, (∀ i < N, a < (m.activePages i).pte ∨ (m.activePages i).pte + 8 ≤ a) → m1.mem a = m.mem a

/-- The entry under the hand goes to slot `swapId` of the swap area. The first word of its page is the link
of the list of free pages. -/
structure VictimOut (N swapId : ℕ) (m1 m' : Memory) : Prop where
  victim : readPte m' (m1.activePages m1.clockHead).pte = swapId * 2 ^ 10 ||| pageSwap
  others : ∀ i < N, i ≠ m1.clockHead → readPte m' (m1.activePages i).pte = readPte m1 (m1.activePages i).pte
  outside : ∀ a, (a < (m1.activePages m1.clockHead).pte ∨ (m1.activePages m1.clockHead).pte + 8 ≤ a) →
    (a < (m1.activePages m1.clockHead).kva ∨ (m1.activePages m1.clockHead).kva + 8 ≤ a) → m'.mem a = m1.mem a
  clock : m'.clockHead = (m1.clockHead + 1) % N
  table : m'.activePages = m1.activePages
  slots : m'.swapPageStatus = Function.update m1.swapPageStatus swapId true

section out
variable {N k swapId : ℕ} {m m1 : Memory}

theorem clockScanN_spec (T : ClockTable N m) (hk : Stops N m.clockHead (accessed m) k) :
    ∃ m1, clockScanN N (N + 1) m = some m1 ∧ ClockPhase N k m m1 := by
  have hsweep := sweep_stops T.pos hk
  rw [Nat.mod_eq_of_lt T.clock] at hsweep
  obtain ⟨m1, hm1, S, hc⟩ := clockScanN_sim T (ClockSim.start m) T.clock hsweep
  refine ⟨m1, hm1, hc, S.rest, fun i hi b => ?_, S.outside⟩
  rw [S.entry i hi, cleared]
  by_cases hp : Passed N m.clockHead k i
  · rw [decide_eq_true hp, Bool.not_true, Bool.and_false, if_neg Bool.false_ne_true, testBit_unaccessed]
    simp [hp]
  · simp only [hp, decide_false, Bool.not_false, Bool.and_true, and_false]
    split
    · rfl
    · rename_i hclear
      rw [unaccessed_of_clear (by simpa [accessed] using hclear)]

/-- The table is as full after the search. -/
theorem ClockPhase.table (T : ClockTable N m) (h : ClockPhase N k m m1) : ClockTable N m1 := by
  have hpages : m1.activePages = m.activePages := by rw [h.rest]
  refine ⟨T.pos, ?_, ?_, ?_, ?_, ?_, ?_⟩
  · rw [hpages]
    exact T.valid
  · rw [h.rest]
    exact T.count
  · rw [h.clock]
    exact Nat.mod_lt _ T.pos
  · rw [hpages]
    exact T.aligned
  · rw [hpages]
    exact T.distinct
  · rw [hpages]
    exact T.data

/-- The memory after the page table entry at `p` is written and the page at `q` is freed. -/
theorem freePage_writePte_mem {p q v a : ℕ} (hp : a < p ∨ p + 8 ≤ a) (hq : a < q ∨ q + 8 ≤ a) :
    (freePage q (writePte p v m)).mem a = m.mem a := by
  unfold freePage
  split
  · exact putLe_out hp
  · exact (putLe_out hq).trans (putLe_out hp)

theorem readPte_freePage {p q : ℕ} (h : p + 8 ≤ q ∨ q + 8 ≤ p) : readPte (freePage q m) p = readPte m p := by
  unfold freePage
  split
  · rfl
  · exact le_putLe_of_disjoint h

/-- The first free slot of the swap area. -/
theorem getFreeSwapId_first (hid : swapId < swapMaxPages) (hfree : m.swapPageStatus swapId = false)
    (hfirst : ∀ j < swapId, m.swapPageStatus j = true) :
    getFreeSwapId m =
      some (swapId, { m with swapPageStatus := Function.update m.swapPageStatus swapId true }) := by
  have hscan : scan (fun i => if m.swapPageStatus i then none else some i) 0 swapMaxPages = some swapId :=
    scan_eq_some.2 ⟨swapId, Nat.zero_le _, by omega, by rw [hfree]; rfl,
      fun j _ hj => by rw [hfirst j hj]; rfl⟩
  rw [getFreeSwapId, hscan]
  rfl

theorem getFreeSwapId_full (h : ∀ i < swapMaxPages, m.swapPageStatus i = true) : getFreeSwapId m = none := by
  have hscan : scan (fun i => if m.swapPageStatus i then none else some i) 0 swapMaxPages = none :=
    scan_eq_none.2 fun j _ hj => by rw [h j (by omega)]; rfl
  rw [getFreeSwapId, hscan]
  rfl

/-- What `swap_out` does to its victim. -/
def evictVictim (N swapId : ℕ) (m : Memory) : Memory :=
  { freePage (m.activePages m.clockHead).kva (writePte (m.activePages m.clockHead).pte (swapId * 2 ^ 10 ||| pageSwap)
      (swapWrite (m.activePages m.clockHead).kva swapId
        { m with swapPageStatus := Function.update m.swapPageStatus swapId true })) with
    clockHead := (m.clockHead + 1) % N }

theorem evictVictim_out (T : ClockTable N m) (hid : swapId < swapMaxPages) :
    VictimOut N swapId m (evictVictim N swapId m) := by
  have hc := T.clock
  refine ⟨?_, fun i hi hne => ?_, fun a hp hq => ?_, rfl, ?_, ?_⟩
  · refine (readPte_freePage (T.data _ hc _ hc)).trans ?_
    exact readPte_writePte_self _ _ (swapEntry_lt hid)
  · refine (readPte_freePage (T.data _ hc i hi)).trans ?_
    exact readPte_writePte_of_disjoint (T.apart hc hi (Ne.symm hne))
  · exact freePage_writePte_mem hp hq
  · exact (freePage_rest ..).activePages
  · exact (freePage_rest ..).swapPageStatus

/-- **swap_out evicts by second chance.** The victim is the first entry from the hand on whose accessed bit
is clear, or the entry under the hand. -/
theorem swapOutN_secondChance (T : ClockTable N m) :
    ∃ k m1, Stops N m.clockHead (accessed m) k ∧ clockScanN N (N + 1) m = some m1 ∧ ClockPhase N k m m1 ∧
      ((∀ i < swapMaxPages, m.swapPageStatus i = true) → swapOutN N m = some (none, m1)) ∧
      ∀ swapId < swapMaxPages, m.swapPageStatus swapId = false → (∀ j < swapId, m.swapPageStatus j = true) →
        ∃ m', swapOutN N m = some (some m1.clockHead, m') ∧ VictimOut N swapId m1 m' := by
  obtain ⟨k, hk⟩ := exists_stops N m.clockHead (accessed m)
  obtain ⟨m1, hscan, hphase⟩ := clockScanN_spec T hk
  have hslots : m1.swapPageStatus = m.swapPageStatus := by rw [hphase.rest]
  have hcount := T.count
  refine ⟨k, m1, hk, hscan, hphase, fun hfull => ?_, fun swapId hid hfree hfirst => ?_⟩
  · rw [swapOutN, if_neg (by omega), hscan, Option.map_some]
    dsimp only
    rw [getFreeSwapId_full (by rwa [hslots])]
  · have hget := getFreeSwapId_first (m := m1) hid (by rwa [hslots]) (by rwa [hslots])
    have hback : (freePage (m1.activePages m1.clockHead).kva (writePte (m1.activePages m1.clockHead).pte
        (swapId * 2 ^ 10 ||| pageSwap) (swapWrite (m1.activePages m1.clockHead).kva swapId
          { m1 with swapPageStatus := Function.update m1.swapPageStatus swapId true }))).clockHead = m1.clockHead :=
      (freePage_rest ..).clockHead
    refine ⟨evictVictim N swapId m1, ?_, evictVictim_out (hphase.table T) hid⟩
    rw [swapOutN, if_neg (by omega), hscan, Option.map_some]
    dsimp only
    rw [hget]
    dsimp only
    rw [hback]
    rfl

/-- Three pages. -/
def dialMemory : Memory := { freshMemory with
  activePages := fun i => ⟨0xffffffc052100000 + 4096 * i, 0xffffffc052001000 + 8 * i, 4096 * i, 2, true⟩
  activePageCount := 3
  clockHead := 1 }

theorem dialMemory_table : ClockTable 3 dialMemory := by
  refine ⟨by decide, fun _ _ => rfl, by decide, by decide, fun i _ => ?_, fun i _ j _ hne => ?_, fun i _ j _ => ?_⟩
  · show (0xffffffc052001000 + 8 * i) % 8 = 0
    omega
  · show 0xffffffc052001000 + 8 * i ≠ 0xffffffc052001000 + 8 * j
    omega
  · show 0xffffffc052001000 + 8 * j + 8 ≤ 0xffffffc052100000 + 4096 * i ∨ _
    omega

/-- For a table of three pages. -/
theorem swapOutN_secondChance_three :
    ∃ k m1, Stops 3 1 (accessed dialMemory) k ∧ clockScanN 3 4 dialMemory = some m1 ∧ ClockPhase 3 k dialMemory m1 ∧
      ((∀ i < swapMaxPages, dialMemory.swapPageStatus i = true) → swapOutN 3 dialMemory = some (none, m1)) ∧
      ∀ swapId < swapMaxPages, dialMemory.swapPageStatus swapId = false →
        (∀ j < swapId, dialMemory.swapPageStatus j = true) →
        ∃ m', swapOutN 3 dialMemory = some (some m1.clockHead, m') ∧ VictimOut 3 swapId m1 m' :=
  swapOutN_secondChance dialMemory_table

end out

/-! ## The table of the system -/

/-- When the memory is in order, a table with valid entries only is such a table. -/
theorem SpaceOk.clockTable {m : Memory} {own : ℕ → Owner} (S : SpaceOk m own)
    (hvalid : ∀ i < maxAllowablePages, (m.activePages i).valid = true)
    (hcount : (maxAllowablePages : ℤ) ≤ m.activePageCount) : ClockTable maxAllowablePages m := by
  have hslot (i : ℕ) (hi : i < maxAllowablePages) : ∃ r v t, own t = .tab r (v / 512) ∧
      (m.activePages i).pte = t + 8 * (v % 512) ∧ Listed m own (m.activePages i) r v := by
    obtain ⟨r, v, h⟩ := S.active.listed i hi (hvalid i hi)
    obtain ⟨t, ht, hpte⟩ := S.tables.slot h.root h.user h.pte
    exact ⟨r, v, t, ht, hpte, h⟩
  have A := S.heap.aligned
  refine ⟨by decide, hvalid, hcount, S.active.clock, fun i hi => ?_, fun i hi j hj hne he => ?_, fun i hi j hj => ?_⟩
  · obtain ⟨r, v, t, ht, hpte, -⟩ := hslot i hi
    have := A t (by rw [ht]; nofun)
    omega
  · -- one entry of the page tables has one page, and an entry of the list that is valid has a page of its own
    obtain ⟨r, v, t, ht, hpte, h⟩ := hslot i hi
    obtain ⟨r', v', t', ht', hpte', h'⟩ := hslot j hj
    rw [hpte, hpte'] at he
    obtain ⟨rfl, hmod⟩ := A.entry_inj (by rw [ht]; nofun) (by rw [ht']; nofun) (Nat.mod_lt _ (by norm_num))
      (Nat.mod_lt _ (by norm_num)) he
    rw [ht] at ht'
    injection ht' with hr hdiv
    have hv : v = v' := by omega
    subst hr hv
    have hkva : (m.activePages i).kva = (m.activePages j).kva := h.kva.symm.trans h'.kva
    rcases Nat.lt_or_gt_of_ne hne with hlt | hgt
    · exact S.active.first j hj i hlt (hvalid j hj) hkva
    · exact S.active.first i hi j hgt (hvalid i hi) hkva.symm
  · obtain ⟨r, v, t, ht, hpte, -⟩ := hslot j hj
    obtain ⟨r', v', -, -, -, h⟩ := hslot i hi
    have h1 := A t (by rw [ht]; nofun)
    have h2 := A _ (show own (m.activePages i).kva ≠ .unused by rw [h.owner]; nofun)
    have hne : t ≠ (m.activePages i).kva := fun e => by
      rw [e, h.owner] at ht
      cases ht
    omega

end RiscvKernel.Mm
