import RiscvKernel.Mm.Tables

/-!
# Changing the entries of user addresses

The writes to last tables. `TablesOk.setLeaf` is one write, together with the new owners of the pages that it
concerns; `mapPage_spec` says that `map_page` makes the missing tables and then is such a write.
-/

namespace RiscvKernel.Mm

open Lib

/-- The owner is a table. -/
def Owner.IsTable : Owner → Prop
  | .root | .mid .. | .tab .. => True
  | _ => False

/-- The owners change for pages that only the page number `v` of `r` may lead to. -/
def Retag (own own' : ℕ → Owner) (r v : ℕ) : Prop :=
  ∀ p, own' p ≠ own p → ¬ (own p).IsTable ∧ ¬ (own' p).IsTable ∧ (∀ i, own p ≠ .shm i) ∧
    ∀ r' v', own p = .data r' v' → r' = r ∧ v' = v

namespace Retag

variable {own own' : ℕ → Owner} {r v p : ℕ}

theorem refl (own : ℕ → Owner) (r v : ℕ) : Retag own own r v := fun _ h => absurd rfl h

theorem table (h : Retag own own' r v) (hp : (own p).IsTable) : own' p = own p := by
  by_contra hne
  exact (h p hne).1 hp

theorem table' (h : Retag own own' r v) (hp : (own' p).IsTable) : own' p = own p := by
  by_contra hne
  exact (h p hne).2.1 hp

/-- One page changes its owner. -/
theorem one {o : Owner} (h : ¬ (own p).IsTable) (ho : ¬ o.IsTable) (hs : ∀ i, own p ≠ .shm i)
    (hd : ∀ r' v', own p = .data r' v' → r' = r ∧ v' = v) : Retag own (Function.update own p o) r v := by
  intro q hne
  have hq : q = p := by
    by_contra h
    exact hne (Function.update_of_ne h _ _)
  rw [hq, Function.update_self]
  exact ⟨h, ho, hs, hd⟩

end Retag

theorem Place.retag {own own' : ℕ → Owner} {r v r' a : ℕ} {o : Owner} (h : Retag own own' r v)
    (hp : Place own r' a o) : Place own' r' a o := by
  cases hp with
  | mid hr hi => exact .mid ((h.table (by rw [hr]; trivial)).trans hr) hi
  | tab hm hj => exact .tab ((h.table (by rw [hm]; trivial)).trans hm) hj

theorem Place.retag' {own own' : ℕ → Owner} {r v r' a : ℕ} {o : Owner} (h : Retag own own' r v)
    (hp : Place own' r' a o) : Place own r' a o := by
  cases hp with
  | mid hr hi => exact .mid ((h.table' (by rw [hr]; trivial)).symm.trans hr) hi
  | tab hm hj => exact .tab ((h.table' (by rw [hm]; trivial)).symm.trans hm) hj

theorem Owner.Below.isTable {r : ℕ} {o : Owner} (h : o.Below r) : o.IsTable := by
  cases o <;> first | exact h.elim | trivial

section setLeaf
variable {m : Memory} {own own' : ℕ → Owner} {r k t j e : ℕ}

/-- An entry of another table, or of another place, is not changed by a write to a last table. -/
theorem readPte_setLeaf (A : Aligned own) (ht : own t = .tab r k) {p i : ℕ} (hp : own p ≠ .unused)
    (h : p + 8 * i ≠ t + 8 * j) : readPte (writePte (t + 8 * j) e m) (p + 8 * i) = readPte m (p + 8 * i) :=
  readPte_writePte_of_disjoint ((A.entry_apart hp (by rw [ht]; exact nofun) h).symm.imp id id)

/-- **A write to an entry of a last table** keeps the tables in order when the new entry agrees with the new
owners. -/
theorem TablesOk.setLeaf (T : TablesOk m own) (A : Aligned own) (ht : own t = .tab r k) (hj : j < 512)
    (he : e < 2 ^ 64) (hown : Retag own own' r (512 * k + j)) (hleaf : LeafOk own' r (512 * k + j) e) :
    TablesOk (writePte (t + 8 * j) e m) own' := by
  have hplace {r' a : ℕ} {o : Owner} (hp : Place own r' a o) :
      readPte (writePte (t + 8 * j) e m) a = readPte m a := by
    obtain ⟨p, i, rfl, hi, hu, hpage⟩ := hp.page
    refine readPte_setLeaf A ht hu.1 fun heq => ?_
    obtain ⟨rfl, -⟩ := A.entry_inj hu.1 (by rw [ht]; exact nofun) hi hj heq
    rw [ht] at hpage
    rcases hpage with ⟨h, -⟩ | ⟨i, h⟩ <;> cases h
  refine ⟨fun {r' a o} hp hpr => ?_, fun {r' p} hb => ?_, fun {p r' k' j'} hp hj' => ?_⟩
  · have hp := hp.retag' hown
    rw [hplace hp] at hpr ⊢
    have hd := T.down hp hpr
    exact (hown.table (by rw [hd]; exact hp.below.isTable)).trans hd
  · have hkeep := hown.table' hb.isTable
    rw [hkeep] at hb ⊢
    obtain ⟨a, hp, hpr, hta⟩ := T.up hb
    rw [← hplace hp] at hpr hta
    exact ⟨a, hp.retag hown, hpr, hta⟩
  · have hp : own p = .tab r' k' := (hown.table' (by rw [hp]; trivial)).symm.trans hp
    by_cases heq : p + 8 * j' = t + 8 * j
    · obtain ⟨rfl, rfl⟩ := A.entry_inj (by rw [hp]; exact nofun) (by rw [ht]; exact nofun) hj' hj heq
      rw [ht] at hp
      cases hp
      rw [readPte_writePte_self m _ he]
      exact hleaf
    · rw [readPte_setLeaf A ht (by rw [hp]; exact nofun) heq]
      refine (T.leaf hp hj').congr fun q hq => ?_
      by_contra hne
      obtain ⟨-, -, hs, hd⟩ := hown q hne
      rcases hq with hq | ⟨i, hq⟩
      · -- a page of a program belongs to one place, so this is the place that is written
        obtain ⟨rfl, hv⟩ := hd _ _ hq
        obtain ⟨rfl, rfl⟩ : k' = k ∧ j' = j := by omega
        exact heq (by rw [T.tab_unique hp ht])
      · exact hs i hq

/-- The entries after the write. -/
theorem entry_setLeaf (T : TablesOk m own) (A : Aligned own) (ht : own t = .tab r k) (hj : j < 512)
    (he : e < 2 ^ 64) (T' : TablesOk (writePte (t + 8 * j) e m) own') (hown : Retag own own' r (512 * k + j))
    {r' v' : ℕ} (hr' : own r' = .root) (hv' : v' < userPages) :
    entry (writePte (t + 8 * j) e m) r' v' = if r' = r ∧ v' = 512 * k + j then e else entry m r' v' := by
  obtain ⟨k', j', hj', rfl⟩ : ∃ k' j', j' < 512 ∧ v' = 512 * k' + j' :=
    ⟨v' / 512, v' % 512, Nat.mod_lt _ (by norm_num), by omega⟩
  have hr'' : own' r' = .root := (hown.table (by rw [hr']; trivial)).trans hr'
  by_cases htab : ∃ p, own p = .tab r' k'
  · obtain ⟨p, hp⟩ := htab
    have hp' : own' p = .tab r' k' := (hown.table (by rw [hp]; trivial)).trans hp
    rw [T.entry_tab hp hj', T'.entry_tab hp' hj']
    by_cases heq : p + 8 * j' = t + 8 * j
    · obtain ⟨rfl, rfl⟩ := A.entry_inj (by rw [hp]; exact nofun) (by rw [ht]; exact nofun) hj' hj heq
      rw [ht] at hp
      cases hp
      rw [if_pos ⟨rfl, rfl⟩, readPte_writePte_self m _ he]
    · rw [readPte_setLeaf A ht (by rw [hp]; exact nofun) heq, if_neg]
      rintro ⟨rfl, hv⟩
      obtain ⟨rfl, rfl⟩ : k' = k ∧ j' = j := by omega
      exact heq (by rw [T.tab_unique hp ht])
  · have hdiv : (512 * k' + j') / 512 = k' := by omega
    have hno : ∀ p, own p ≠ .tab r' ((512 * k' + j') / 512) := by
      rw [hdiv]
      exact fun p hp => htab ⟨p, hp⟩
    have hno' : ∀ p, own' p ≠ .tab r' ((512 * k' + j') / 512) := fun p hp =>
      hno p ((hown.table' (by rw [hp]; trivial)).symm.trans hp)
    rw [T.entry_none hr' hv' hno, T'.entry_none hr'' hv' hno', if_neg]
    rintro ⟨rfl, hv⟩
    obtain ⟨rfl, -⟩ : k' = k ∧ j' = j := by omega
    exact htab ⟨t, ht⟩

end setLeaf

/-! ## New tables do not change entries -/

namespace Grow

variable {r₀ r : ℕ} {m m' : Memory} {own own' : ℕ → Owner}

theorem table (h : Grow r₀ m own m' own') {p : ℕ} (hp : (own p).IsTable) : own' p = own p := by
  refine h.used p ?_
  generalize own p = o at hp
  cases o <;> first | exact hp.elim | exact ⟨nofun, nofun⟩

theorem getPte (h : Grow r₀ m own m' own') (T : TablesOk m own) (T' : TablesOk m' own') (hr : own r = .root)
    {va a : ℕ} (hv : vpn va < userPages) (ha : getPte va r m = some a) : getPte va r m' = some a := by
  obtain ⟨t, ht, rfl⟩ := (T.getPte_iff hr hv).1 ha
  have ht' := (h.table (by rw [ht]; trivial)).trans ht
  exact T'.getPte_tab ht' rfl

theorem entry (h : Grow r₀ m own m' own') (T : TablesOk m own) (T' : TablesOk m' own') (A' : Aligned own')
    (hr : own r = .root) {v : ℕ} (hv : v < userPages) : entry m' r v = entry m r v := by
  obtain ⟨k, j, hj, rfl⟩ : ∃ k j, j < 512 ∧ v = 512 * k + j := ⟨v / 512, v % 512, Nat.mod_lt _ (by norm_num), by omega⟩
  have hdiv : (512 * k + j) / 512 = k := by omega
  have hr' := (h.table (by rw [hr]; trivial)).trans hr
  by_cases htab : ∃ p, own' p = .tab r k
  · obtain ⟨p, hp⟩ := htab
    rw [T'.entry_tab hp hj]
    by_cases hold : own' p = own p
    · have hp' : own p = .tab r k := hold ▸ hp
      rw [T.entry_tab hp' hj]
      refine readPte_congr fun i hi => ?_
      refine h.page_mem A' (p := p) (by rw [hp']; exact ⟨nofun, nofun⟩) (by rw [hp']; exact nofun)
        (by rw [hp']; exact fun _ => nofun) ⟨by omega, by omega⟩
    · rw [h.empty p hold k (by
        have hb := (h.new p hold).2
        rw [hp] at hb
        rw [hp, show r = r₀ from hb]) j hj, T.entry_none hr hv]
      intro t ht
      rw [hdiv] at ht
      have ht' := (h.table (by rw [ht]; trivial)).trans ht
      rw [T'.tab_unique hp ht'] at hold
      exact hold (ht'.trans ht.symm)
  · rw [T'.entry_none hr' hv, T.entry_none hr hv]
    · intro t ht
      rw [hdiv] at ht
      exact htab ⟨t, (h.table (by rw [ht]; trivial)).trans ht⟩
    · intro t ht
      rw [hdiv] at ht
      exact htab ⟨t, ht⟩

end Grow

/-! ## map_page -/

/-- The flags that `map_page` sets. -/
def mapFlags (flags : ℕ) : ℕ := flags ||| pagePresent ||| pageAccessed ||| pageDirty

/-- **map_page** of a user address makes the tables on the way and writes the entry. -/
theorem mapPage_spec {m : Memory} {own : ℕ → Owner} {r va q flags : ℕ} (H : HeapOwned m own) (T : TablesOk m own)
    (hr : own r = .root) (hv : vpn va < userPages) (hq : IsPage q) (hf : mapFlags flags < 1024)
    (hroom : m.kernMemCurr + 2 * 4096 ≤ 2 ^ 64) :
    ∃ m' own' t, HeapOwned m' own' ∧ TablesOk m' own' ∧ Grow r m own m' own' ∧ own' t = .tab r (vpn va / 512) ∧
      mapPage va (kva2pa q) r flags m = writePte (t + 8 * (vpn va % 512)) (mkEntry q (mapFlags flags)) m' ∧
      m'.kernMemCurr ≤ m.kernMemCurr + 2 * 4096 ∧ Booked m own m' own' ∧
      ∃ own1 j k, Took (j + k) m m' ∧ Made own own1 (.mid r (vpn va / 2 ^ 18)) j ∧
        Made own1 own' (.tab r (vpn va / 512)) k := by
  have hi2 : getVpn2 va < 256 := (getVpn2_lt va).2 hv
  have hi1 : getVpn1 va < 512 := Nat.mod_lt _ (by norm_num)
  obtain ⟨own1, H1, T1, G1, -, ho1, hc1, B1, j, hj, M1⟩ := ensureTable_spec H T (.mid hr hi2) (by omega)
  generalize hm1 : ensureTable (r + 8 * getVpn2 va) m = m1 at H1 T1 G1 ho1 hc1 B1 hj
  obtain ⟨own2, H2, T2, G2, -, ho2, hc2, B2, k, hk, M2⟩ := ensureTable_spec H1 T1 (.tab ho1 hi1) (by omega)
  generalize hm2 : ensureTable (target (readPte m1 (r + 8 * getVpn2 va)) + 8 * getVpn1 va) m1 = m2 at H2 T2 G2 ho2 hc2 B2 hk
  have htab : vpn va / 512 = 512 * getVpn2 va + getVpn1 va := by
    rw [getVpn2_eq, getVpn1_eq]
    omega
  refine ⟨m2, own2, target (readPte m2 (target (readPte m1 (r + 8 * getVpn2 va)) + 8 * getVpn1 va)), H2, T2,
    G1.trans G2 H2.aligned, ?_, ?_, by omega, B1.trans B2, own1, j, k, hj.trans hk H2.count_nonneg, ?_, ?_⟩
  · rw [htab]
    exact ho2
  · have hpfn (e : ℕ) : setPfn e (kva2pa q / pageSize) < 2 ^ 64 := Nat.mod_lt _ (by norm_num)
    unfold target at hm2
    unfold mapPage
    dsimp only
    rw [hm1, hm2, readPte_writePte_self _ _ (hpfn _), writePte_writePte]
    unfold mapFlags at hf ⊢
    rw [setEntry_eq hq hf, getVpn0_eq]
    rfl
  · rw [← getVpn2_eq]
    exact M1
  · rw [htab]
    exact M2

end RiscvKernel.Mm
