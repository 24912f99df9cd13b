import RiscvKernel.Mm.Owner

/-!
# The page tables of user programs

`TablesOk` says, of every root table and the tables below its first 256 entries, that a present entry leads
to a page with the owner that belongs to its place, and that every table hangs at its place. With it the
entries of user addresses behave like a function of the root and the page number: `entry`.
-/

namespace RiscvKernel.Mm

open Lib

/-! ## Entries -/

def Present (e : ℕ) : Prop := getAttribute e pagePresent ≠ 0

instance (e : ℕ) : Decidable (Present e) := inferInstanceAs (Decidable (_ ≠ _))

/-- The page that an entry leads to, as a kernel address. -/
def target (e : ℕ) : ℕ := pa2kva (getPa e)

/-- The number of the page of an address, of 27 bits. -/
def vpn (va : ℕ) : ℕ := va / 2 ^ 12 % 2 ^ 27

/-- The first page numbers are those of user addresses. -/
abbrev userPages : ℕ := 2 ^ 26

theorem present_iff (e : ℕ) : Present e ↔ e % 2 = 1 := by
  unfold Present getAttribute pagePresent
  rw [Nat.and_one_is_mod]
  omega

theorem not_present_zero : ¬ Present 0 := by decide

theorem getVpn2_eq (va : ℕ) : getVpn2 va = vpn va / 2 ^ 18 := by
  unfold getVpn2 vpn
  omega

theorem getVpn1_eq (va : ℕ) : getVpn1 va = vpn va / 2 ^ 9 % 512 := by
  unfold getVpn1 vpn
  omega

theorem getVpn0_eq (va : ℕ) : getVpn0 va = vpn va % 512 := by
  unfold getVpn0 vpn
  omega

theorem vpn_lt (va : ℕ) : vpn va < 2 ^ 27 := Nat.mod_lt _ (by norm_num)

theorem vpn_mul {v : ℕ} (hv : v < 2 ^ 27) : vpn (v * 4096) = v := by
  unfold vpn
  omega

/-- The user addresses are those with a page number in the lower half. -/
theorem getVpn2_lt (va : ℕ) : getVpn2 va < 256 ↔ vpn va < userPages := by
  rw [getVpn2_eq]
  unfold userPages
  omega

/-- Flags fill the low bits. -/
theorem or_flags (a : ℕ) {b : ℕ} (hb : b < 1024) : a / 2 ^ 10 * 2 ^ 10 ||| b = a / 2 ^ 10 * 2 ^ 10 + b := by
  rw [Nat.mul_comm]
  exact (Nat.two_pow_add_eq_or_of_lt (i := 10) hb _).symm

/-- The entry that `set_pfn` and `set_attribute` make. -/
def mkEntry (kva flags : ℕ) : ℕ := (kva - kvaPaOffset) / 2 ^ 12 * 2 ^ 10 + flags

variable {q flags : ℕ}

theorem IsPage.bounds (hq : IsPage q) : q % 4096 = 0 ∧ kvaPaOffset ≤ q ∧ q + 4096 ≤ 2 ^ 64 := by
  obtain ⟨h1, h2, h3⟩ := hq
  refine ⟨h1, ?_, h3⟩
  unfold freememKernel at h2
  unfold kvaPaOffset
  omega

theorem kva2pa_page (hq : IsPage q) : kva2pa q = q - kvaPaOffset := by
  obtain ⟨-, h2, h3⟩ := hq.bounds
  unfold kva2pa
  unfold kvaPaOffset at *
  omega

theorem setEntry_eq (hq : IsPage q) (hf : flags < 1024) (e : ℕ) :
    setAttribute (setPfn e (kva2pa q / pageSize)) flags = mkEntry q flags := by
  obtain ⟨h1, h2, h3⟩ := hq.bounds
  unfold setAttribute
  rw [or_flags _ hf, kva2pa_page hq]
  unfold setPfn mkEntry pageSize
  unfold kvaPaOffset at *
  omega

theorem mkEntry_lt (hq : IsPage q) (hf : flags < 1024) : mkEntry q flags < 2 ^ 64 := by
  obtain ⟨h1, h2, h3⟩ := hq.bounds
  unfold mkEntry
  unfold kvaPaOffset at *
  omega

theorem target_mkEntry (hq : IsPage q) (hf : flags < 1024) : target (mkEntry q flags) = q := by
  obtain ⟨h1, h2, h3⟩ := hq.bounds
  unfold target pa2kva getPa mkEntry
  unfold kvaPaOffset at *
  omega

/-- A mask of flags sees the low bits. -/
theorem add_and_mask (n : ℕ) {mask b : ℕ} (hm : mask < 2 ^ 10) (hb : b < 2 ^ 10) :
    (n * 2 ^ 10 + b) &&& mask = b &&& mask := by
  apply Nat.eq_of_testBit_eq
  intro i
  rw [Nat.testBit_and, Nat.testBit_and]
  by_cases hi : i < 10
  · rw [Nat.mul_comm, Nat.testBit_two_pow_mul_add _ hb, if_pos hi]
  · have hpow : mask < 2 ^ i := hm.trans_le (Nat.pow_le_pow_right (by norm_num) (by omega))
    rw [Nat.testBit_lt_two_pow hpow, Bool.and_false, Bool.and_false]

/-- The attributes of an entry are its flags. -/
theorem getAttribute_mkEntry {mask : ℕ} (hm : mask < 1024) (hf : flags < 1024) :
    getAttribute (mkEntry q flags) mask = getAttribute flags mask := by
  rw [getAttribute, getAttribute, mkEntry, add_and_mask _ hm hf]

theorem present_mkEntry : Present (mkEntry q flags) ↔ flags % 2 = 1 := by
  rw [present_iff]
  unfold mkEntry
  omega

/-! ## Reads and writes of entries -/

theorem readPte_congr {m m' : Memory} {a : ℕ} (h : ∀ i < 8, m'.mem (a + i) = m.mem (a + i)) :
    readPte m' a = readPte m a := le_congr h

theorem readPte_lt (m : Memory) (a : ℕ) : readPte m a < 2 ^ 64 := le_lt m.mem a 8

theorem readPte_writePte_self (m : Memory) (a : ℕ) {v : ℕ} (hv : v < 2 ^ 64) :
    readPte (writePte a v m) a = v :=
  (le_putLe_self m.mem a 8 v).trans (Nat.mod_eq_of_lt hv)

theorem readPte_writePte_of_disjoint {m : Memory} {a b v : ℕ} (h : b + 8 ≤ a ∨ a + 8 ≤ b) :
    readPte (writePte a v m) b = readPte m b := le_putLe_of_disjoint h

theorem writePte_writePte (m : Memory) (a v w : ℕ) : writePte a v (writePte a w m) = writePte a v m := by
  unfold writePte
  congr 1
  funext i
  unfold putLe
  dsimp only
  split <;> rfl

/-- A cleared page has no entries. -/
theorem readPte_clearPage {m : Memory} {p j : ℕ} (hj : j < 512) : readPte (clearPage p m) (p + 8 * j) = 0 := by
  refine (le_of_bytes (v := 0) fun i hi => ?_).trans (by simp)
  refine (fill_in (by omega) ?_).trans (by simp [leByte])
  unfold pageSize
  omega

theorem clearPage_mem {m : Memory} {p a : ℕ} (ha : ¬ InPage p a) : (clearPage p m).mem a = m.mem a := by
  refine fill_out ?_
  unfold InPage at ha
  unfold pageSize
  omega

/-! ## Address spaces -/

/-- The owner is a table below the root `r`. -/
def Owner.Below (r : ℕ) : Owner → Prop
  | .mid r' _ => r' = r
  | .tab r' _ => r' = r
  | _ => False

/-- The entry at an address is the place of a table below the root `r`. -/
inductive Place (own : ℕ → Owner) (r : ℕ) : ℕ → Owner → Prop
  | mid {i : ℕ} (hr : own r = .root) (hi : i < 256) : Place own r (r + 8 * i) (.mid r i)
  | tab {p i j : ℕ} (hp : own p = .mid r i) (hj : j < 512) : Place own r (p + 8 * j) (.tab r (512 * i + j))

/-- An entry of a last table: a present one leads to the page of the program for this place, or to a shared
page. -/
structure LeafOk (own : ℕ → Owner) (r v e : ℕ) : Prop where
  data : Present e → getAttribute e pageShm = 0 → own (target e) = .data r v
  shm : Present e → getAttribute e pageShm ≠ 0 → ∃ i, own (target e) = .shm i

/-- The tables of all address spaces agree with the owners. -/
structure TablesOk (m : Memory) (own : ℕ → Owner) : Prop where
  down : ∀ {r a o}, Place own r a o → Present (readPte m a) → own (target (readPte m a)) = o
  up : ∀ {r p}, (own p).Below r → ∃ a, Place own r a (own p) ∧ Present (readPte m a) ∧ target (readPte m a) = p
  leaf : ∀ {p r k j}, own p = .tab r k → j < 512 → LeafOk own r (512 * k + j) (readPte m (p + 8 * j))

theorem leafOk_of_not_present {own : ℕ → Owner} {r v e : ℕ} (h : ¬ Present e) : LeafOk own r v e :=
  ⟨fun hp => absurd hp h, fun hp => absurd hp h⟩

theorem LeafOk.congr {own own' : ℕ → Owner} {r v e : ℕ} (h : LeafOk own r v e)
    (ho : ∀ p, own p = .data r v ∨ (∃ i, own p = .shm i) → own' p = own p) : LeafOk own' r v e := by
  refine ⟨fun hp hs => ?_, fun hp hs => ?_⟩
  · rw [ho _ (Or.inl (h.data hp hs))]
    exact h.data hp hs
  · obtain ⟨i, hi⟩ := h.shm hp hs
    exact ⟨i, (ho _ (Or.inr ⟨i, hi⟩)).trans hi⟩

namespace Place

variable {own own' : ℕ → Owner} {r a : ℕ} {o : Owner}

theorem below (h : Place own r a o) : o.Below r := by cases h <;> rfl

/-- The place is an entry of a root or a middle table. -/
theorem page (h : Place own r a o) : ∃ p j, a = p + 8 * j ∧ j < 512 ∧ (own p).Used ∧
    ((own p = .root ∧ p = r) ∨ ∃ i, own p = .mid r i) := by
  cases h with
  | mid hr hi => exact ⟨r, _, rfl, by omega, by rw [hr]; exact ⟨nofun, nofun⟩, Or.inl ⟨hr, rfl⟩⟩
  | tab hp hj => exact ⟨_, _, rfl, hj, by rw [hp]; exact ⟨nofun, nofun⟩, Or.inr ⟨_, hp⟩⟩

theorem mono (h : Place own r a o) (ho : ∀ p, (own p).Used → own' p = own p) : Place own' r a o := by
  cases h with
  | mid hr hi => exact .mid ((ho r (by rw [hr]; decide)).trans hr) hi
  | tab hp hj => exact .tab ((ho _ (by rw [hp]; exact ⟨nofun, nofun⟩)).trans hp) hj

end Place

theorem Owner.Below.used {r : ℕ} {o : Owner} (h : o.Below r) : o.Used := by
  cases o <;> first | exact h.elim | exact ⟨nofun, nofun⟩

/-- The owners are those of pages. -/
def Aligned (own : ℕ → Owner) : Prop := ∀ p, own p ≠ .unused → p % 4096 = 0

theorem HeapOwned.aligned {m : Memory} {own : ℕ → Owner} (H : HeapOwned m own) : Aligned own :=
  fun _ hp => (H.isPage hp).1

section places
variable {own : ℕ → Owner} {r r' a b p q j k : ℕ} {o o' : Owner} (A : Aligned own)
include A

/-- An entry of a page determines the page and the index. -/
theorem Aligned.entry_inj (hp : own p ≠ .unused) (hq : own q ≠ .unused) (hj : j < 512) (hk : k < 512)
    (h : p + 8 * j = q + 8 * k) : p = q ∧ j = k := by
  have h1 := A p hp
  have h2 := A q hq
  omega

theorem Place.inj (h : Place own r a o) (h' : Place own r' a o') : r = r' ∧ o = o' := by
  cases h with
  | mid hr hi =>
    generalize hb : r + 8 * _ = b at h'
    cases h' with
    | mid hr' hi' =>
      obtain ⟨rfl, rfl⟩ := A.entry_inj (by simp [hr]) (by simp [hr']) (by omega) (by omega) hb
      exact ⟨rfl, rfl⟩
    | tab hp' hj' =>
      obtain ⟨rfl, -⟩ := A.entry_inj (by simp [hr]) (by simp [hp']) (by omega) hj' hb
      rw [hr] at hp'
      cases hp'
  | tab hp hj =>
    generalize hb : _ + 8 * _ = b at h'
    cases h' with
    | mid hr' hi' =>
      obtain ⟨rfl, -⟩ := A.entry_inj (by simp [hp]) (by simp [hr']) hj (by omega) hb
      rw [hp] at hr'
      cases hr'
    | tab hp' hj' =>
      obtain ⟨rfl, rfl⟩ := A.entry_inj (by simp [hp]) (by simp [hp']) hj hj' hb
      rw [hp] at hp'
      cases hp'
      exact ⟨rfl, rfl⟩

theorem Place.mod (h : Place own r a o) : a % 8 = 0 := by
  obtain ⟨p, j, rfl, -, hu, -⟩ := h.page
  have := A p hu.1
  omega

/-- An entry of another page does not overlap. -/
theorem Aligned.entry_apart (hp : own p ≠ .unused) (hq : own q ≠ .unused)
    (h : p + 8 * j ≠ q + 8 * k) : q + 8 * k + 8 ≤ p + 8 * j ∨ p + 8 * j + 8 ≤ q + 8 * k := by
  have h1 := A p hp
  have h2 := A q hq
  omega

end places

/-! ## New tables -/

/-- The tables of the address space of `r` grow: pages that were not in use become empty tables, and
entries that were not present lead to them. -/
structure Grow (r : ℕ) (m : Memory) (own : ℕ → Owner) (m' : Memory) (own' : ℕ → Owner) : Prop where
  used : ∀ p, (own p).Used → own' p = own p
  new : ∀ p, own' p ≠ own p → ¬ (own p).Used ∧ (own' p).Below r
  empty : ∀ p, own' p ≠ own p → ∀ k, own' p = .tab r k → ∀ j < 512, readPte m' (p + 8 * j) = 0
  mem : ∀ b, m'.mem b ≠ m.mem b → (∃ p, InPage p b ∧ own' p ≠ own p) ∨
    ∃ a o, Place own' r a o ∧ a ≤ b ∧ b < a + 8
  rest : SameRest m m'

theorem Grow.refl (r : ℕ) (m : Memory) (own : ℕ → Owner) : Grow r m own m own :=
  ⟨fun _ _ => rfl, fun _ h => absurd rfl h, fun _ h => absurd rfl h, fun _ h => absurd rfl h, SameRest.refl m⟩

namespace Grow

variable {r p : ℕ} {m m' m'' : Memory} {own own' own'' : ℕ → Owner}

/-- Pages other than roots and middle tables keep their contents. -/
theorem page_mem (h : Grow r m own m' own') (A : Aligned own') (hu : (own p).Used) (hr : own p ≠ .root)
    (hm : ∀ i, own p ≠ .mid r i) {b : ℕ} (hb : InPage p b) : m'.mem b = m.mem b := by
  by_contra hne
  have hown : own' p = own p := h.used p hu
  rcases h.mem b hne with ⟨q, hq, hqo⟩ | ⟨a, o, hpl, h1, h2⟩
  · have hqu : (own' q).Used := (h.new q hqo).2.used
    obtain rfl := inPage_unique (A p (by rw [hown]; exact hu.1)) (A q hqu.1) hb hq
    exact (h.new p hqo).1 hu
  · obtain ⟨q, j, rfl, hj, hqu, hq⟩ := hpl.page
    have h8 := A q hqu.1
    have hpm := A p (by rw [hown]; exact hu.1)
    obtain rfl := inPage_unique hpm h8 hb ⟨by omega, by omega⟩
    rw [hown] at hq
    rcases hq with ⟨hq, -⟩ | ⟨i, hq⟩
    · exact hr hq
    · exact hm i hq

theorem trans (h : Grow r m own m' own') (h' : Grow r m' own' m'' own'') (A : Aligned own'') :
    Grow r m own m'' own'' := by
  have hkeep (p : ℕ) (hne : own' p ≠ own p) : own'' p = own' p := h'.used p (h.new p hne).2.used
  have hnew (p : ℕ) (hne : own'' p ≠ own p) :
      (own' p ≠ own p ∧ own'' p = own' p) ∨ (own' p = own p ∧ own'' p ≠ own' p) := by
    by_cases he : own' p = own p
    · exact Or.inr ⟨he, he ▸ hne⟩
    · exact Or.inl ⟨he, hkeep p he⟩
  refine ⟨fun p hu => ?_, fun p hne => ?_, fun p hne k hk j hj => ?_, fun b hb => ?_, h.rest.trans h'.rest⟩
  · have h1 := h.used p hu
    rw [h'.used p (h1 ▸ hu), h1]
  · rcases hnew p hne with ⟨h1, h2⟩ | ⟨h1, h2⟩
    · rw [h2]
      exact h.new p h1
    · rw [← h1]
      exact h'.new p h2
  · rcases hnew p hne with ⟨h1, h2⟩ | ⟨-, h2⟩
    · rw [h2] at hk
      rw [← h.empty p h1 k hk j hj]
      refine readPte_congr fun i hi => ?_
      refine h'.page_mem A (h.new p h1).2.used (by rw [hk]; exact nofun) (by rw [hk]; exact fun _ => nofun)
        (b := p + 8 * j + i) ⟨by omega, by omega⟩
    · exact h'.empty p h2 k hk j hj
  · by_cases hb' : m''.mem b = m'.mem b
    · rw [hb'] at hb
      rcases h.mem b hb with ⟨p, hp, hne⟩ | ⟨a, o, hpl, hin⟩
      · exact Or.inl ⟨p, hp, by rw [hkeep p hne]; exact hne⟩
      · exact Or.inr ⟨a, o, hpl.mono h'.used, hin⟩
    · rcases h'.mem b hb' with ⟨p, hp, hne⟩ | hpl
      · refine Or.inl ⟨p, hp, fun he => (h'.new p hne).1 ?_⟩
        have hu : (own p).Used := he ▸ (h'.new p hne).2.used
        rw [h.used p hu]
        exact hu
      · exact Or.inr hpl

end Grow

section ensure
variable {m : Memory} {own : ℕ → Owner} {r a : ℕ} {o : Owner}

theorem ensureTable_of_present (h : Present (readPte m a)) : ensureTable a m = m := if_neg h

/-- The memory after a table is made. -/
theorem ensureTable_of_not_present (h : ¬ Present (readPte m a)) (hq : IsPage (allocPage 1 m).1) :
    ensureTable a m =
      clearPage (allocPage 1 m).1 (writePte a (mkEntry (allocPage 1 m).1 1) (allocPage 1 m).2) := by
  have h0 : getAttribute (readPte m a) pagePresent = 0 := not_not.1 h
  have hpfn : setPfn (readPte (allocPage 1 m).2 a) (kva2pa (allocPage 1 m).1 / pageSize) < 2 ^ 64 :=
    Nat.mod_lt _ (by norm_num)
  unfold ensureTable
  rw [if_pos h0]
  dsimp only
  rw [readPte_writePte_self _ _ hpfn, writePte_writePte,
    setEntry_eq hq (show pagePresent < 1024 by decide)]
  rfl

section make
variable {q : ℕ} {m' : Memory} (H : HeapOwned m own) (T : TablesOk m own) (hp : Place own r a o)
  (hpr : ¬ Present (readPte m a)) (hq : IsPage q) (hu : ¬ (own q).Used)
  (hold : ∀ b, ¬ InPage q b → ¬ (a ≤ b ∧ b < a + 8) → m'.mem b = m.mem b)
  (hnew : readPte m' a = mkEntry q 1) (hzero : ∀ j < 512, readPte m' (q + 8 * j) = 0)
include H hq hu hold

/-- Entries of used pages other than the one at `a` are as before. -/
theorem made_entry (hp : Place own r a o) {p j : ℕ} (hup : (own p).Used) (hj : j < 512) (hne : p + 8 * j ≠ a) :
    readPte m' (p + 8 * j) = readPte m (p + 8 * j) := by
  have hpm := H.aligned p hup.1
  have ham := Place.mod H.aligned hp
  have hpq : p ≠ q := fun h => hu (h ▸ hup)
  have hqm := hq.1
  refine readPte_congr fun i hi => hold _ ?_ (by omega)
  unfold InPage
  omega

include T hp hpr hnew hzero

/-- A new table at an entry that was not present. -/
theorem made_tablesOk : TablesOk m' (Function.update own q o) := by
  have ho : o.Used := hp.below.used
  have hown {p : ℕ} (h : (own p).Used) : Function.update own q o p = own p :=
    Function.update_of_ne (fun he => hu (by rw [← he]; exact h)) _ _
  have hback {p : ℕ} (h : p ≠ q) : Function.update own q o p = own p := Function.update_of_ne h _ _
  have hpresent : Present (readPte m' a) := by
    rw [hnew, present_mkEntry]
  have htarget : target (readPte m' a) = q := by
    rw [hnew, target_mkEntry hq (by norm_num)]
  have A := H.aligned
  -- entries outside the new table
  have hdown {b : ℕ} {o' : Owner} {r' : ℕ} (hb : Place own r' b o') (hpb : Present (readPte m' b)) :
      Function.update own q o (target (readPte m' b)) = o' := by
    by_cases hba : b = a
    · subst hba
      rw [htarget, Function.update_self]
      exact (Place.inj A hp hb).2
    · obtain ⟨p, j, rfl, hj, hup, -⟩ := hb.page
      rw [made_entry H hq hu hold hp hup hj hba] at hpb ⊢
      have := T.down hb hpb
      rw [hown (by rw [this]; exact hb.below.used), this]
  refine ⟨fun {r' b o'} hb hpb => ?_, fun {r' p} hbelow => ?_, fun {p r' k j} hpo hj => ?_⟩
  · cases hb with
    | mid hr hi =>
      by_cases hrq : r' = q
      · rw [hrq, hzero _ (by omega)] at hpb
        exact absurd hpb not_present_zero
      · rw [hback hrq] at hr
        exact hdown (.mid hr hi) hpb
    | tab hm hj =>
      rename_i p i j
      by_cases hpq : p = q
      · rw [hpq, hzero _ hj] at hpb
        exact absurd hpb not_present_zero
      · rw [hback hpq] at hm
        exact hdown (.tab hm hj) hpb
  · by_cases hpq : p = q
    · subst hpq
      rw [Function.update_self] at hbelow ⊢
      have hr : r' = r := by
        have h1 := hp.below
        cases o <;> first | exact hbelow.symm.trans h1 | exact h1.elim
      subst hr
      exact ⟨a, hp.mono fun _ h => hown h, hpresent, htarget⟩
    · rw [hback hpq] at hbelow ⊢
      obtain ⟨b, hb, hpb, htb⟩ := T.up hbelow
      have hba : b ≠ a := fun h => hpr (h ▸ hpb)
      obtain ⟨p', j, rfl, hj, hup, -⟩ := hb.page
      have he := made_entry H hq hu hold hp hup hj hba
      refine ⟨_, hb.mono fun _ h => hown h, ?_, ?_⟩
      · rw [he]
        exact hpb
      · rw [he]
        exact htb
  · by_cases hpq : p = q
    · subst hpq
      rw [hzero j hj]
      exact leafOk_of_not_present not_present_zero
    · rw [hback hpq] at hpo
      have hne : p + 8 * j ≠ a := by
        rintro rfl
        obtain ⟨p', j', he, hj', hup', hpage⟩ := hp.page
        obtain ⟨rfl, -⟩ := A.entry_inj (by rw [hpo]; exact nofun) hup'.1 hj hj' he
        rw [hpo] at hpage
        rcases hpage with ⟨h, -⟩ | ⟨i, h⟩ <;> cases h
      rw [made_entry H hq hu hold hp (by rw [hpo]; exact ⟨nofun, nofun⟩) hj hne]
      refine (T.leaf hpo hj).congr fun x hx => hown ?_
      rcases hx with h | ⟨i, h⟩ <;> rw [h] <;> exact ⟨nofun, nofun⟩

end make

/-- There is a page with the owner. -/
def Has (own : ℕ → Owner) (o : Owner) : Prop := ∃ p, own p = o

/-- The number of pages that a table takes: none if it is there already. -/
def Cost (own : ℕ → Owner) (o : Owner) (k : ℕ) : Prop := k = 0 ∧ Has own o ∨ k = 1 ∧ ¬ Has own o

/-- There is a table with the owner `o` now; `k` is the number of pages that it took. -/
structure Made (own own' : ℕ → Owner) (o : Owner) (k : ℕ) : Prop where
  cost : Cost own o k
  has : ∀ o' : Owner, o'.Used → (Has own' o' ↔ Has own o' ∨ o' = o)

theorem Has.update {q : ℕ} {o' : Owner} (hu : ¬ (own q).Used) (ho' : o'.Used) :
    Has (Function.update own q o) o' ↔ Has own o' ∨ o' = o := by
  constructor
  · rintro ⟨p, hp⟩
    by_cases hpq : p = q
    · subst hpq
      rw [Function.update_self] at hp
      exact Or.inr hp.symm
    · rw [Function.update_of_ne hpq] at hp
      exact Or.inl ⟨p, hp⟩
  · rintro (⟨p, hp⟩ | rfl)
    · exact ⟨p, by rw [Function.update_of_ne fun h => hu (by rw [← h, hp]; exact ho'), hp]⟩
    · exact ⟨q, Function.update_self _ _ _⟩

theorem TablesOk.mid_unique {p q i : ℕ} (T : TablesOk m own) (hp : own p = .mid r i) (hq : own q = .mid r i) : p = q := by
  have hroot {x : ℕ} (hx : own x = .mid r i) : target (readPte m (r + 8 * i)) = x := by
    obtain ⟨c, hpl, -, hc⟩ := T.up (p := x) (r := r) (by rw [hx]; rfl)
    rw [hx] at hpl
    cases hpl
    exact hc
  exact (hroot hp).symm.trans (hroot hq)

/-- A table has one place. -/
theorem TablesOk.place_unique {b : ℕ} (T : TablesOk m own) (h : Place own r a o) (h' : Place own r b o) : a = b := by
  cases h with
  | mid _ _ =>
    cases h'
    rfl
  | tab hp hj =>
    rename_i p i j
    generalize ho : Owner.tab r (512 * i + j) = o at h'
    cases h' with
    | mid _ _ => cases ho
    | tab hq hl =>
      rename_i q i' l
      injection ho with _ he
      obtain ⟨rfl, rfl⟩ : i' = i ∧ l = j := by omega
      rw [T.mid_unique hp hq]

/-- Where no table hangs there is none. -/
theorem TablesOk.no_table (T : TablesOk m own) (h : Place own r a o) (hpr : ¬ Present (readPte m a)) (p : ℕ) :
    own p ≠ o := by
  intro hp
  obtain ⟨b, hpl, hb, -⟩ := T.up (p := p) (r := r) (by rw [hp]; exact h.below)
  rw [hp] at hpl
  exact hpr (T.place_unique h hpl ▸ hb)

/-- **ensureTable**: afterwards there is a table at the place. -/
theorem ensureTable_spec (H : HeapOwned m own) (T : TablesOk m own) (hp : Place own r a o)
    (hroom : m.kernMemCurr + 4096 ≤ 2 ^ 64) :
    ∃ own', HeapOwned (ensureTable a m) own' ∧ TablesOk (ensureTable a m) own' ∧
      Grow r m own (ensureTable a m) own' ∧ Present (readPte (ensureTable a m) a) ∧
      own' (target (readPte (ensureTable a m) a)) = o ∧
      (ensureTable a m).kernMemCurr ≤ m.kernMemCurr + 4096 ∧
      Booked m own (ensureTable a m) own' ∧ ∃ k, Took k m (ensureTable a m) ∧ Made own own' o k := by
  by_cases hpr : Present (readPte m a)
  · rw [ensureTable_of_present hpr]
    refine ⟨own, H, T, Grow.refl r m own, hpr, T.down hp hpr, Nat.le_add_right _ _, Booked.same (fun _ => id) rfl, 0,
      Took.zero rfl rfl rfl,
      Or.inl ⟨rfl, _, T.down hp hpr⟩, fun o' _ => ⟨Or.inl, fun h => h.elim id ?_⟩⟩
    rintro rfl
    exact ⟨_, T.down hp hpr⟩
  have hno : ¬ Has own o := fun ⟨x, hx⟩ => T.no_table hp hpr x hx
  have hT := H.took hroom
  have hB := H.booked hroom hp.below.used
  obtain ⟨H1, hnot⟩ := H.alloc le_rfl hroom
  rw [pagesFrom_one] at hnot
  rw [HeapOwned.handOut_one] at H1
  have hu := hnot _ List.mem_cons_self
  have hq : IsPage (allocPage 1 m).1 := H1.isPage (by rw [Function.update_self]; exact nofun)
  rw [ensureTable_of_not_present hpr hq]
  generalize hqe : (allocPage 1 m).1 = q at *
  obtain ⟨p, j, hpj, hj, hup, -⟩ := hp.page
  have hpq : p ≠ q := fun h => hu (h ▸ hup)
  have hqm := hq.1
  have hpm := H.aligned p hup.1
  have hold (b : ℕ) (hb : ¬ InPage q b) (hb' : ¬ (a ≤ b ∧ b < a + 8)) :
      (clearPage q (writePte a (mkEntry q 1) (allocPage 1 m).2)).mem b = m.mem b := by
    refine (clearPage_mem hb).trans ((putLe_out (by omega)).trans ?_)
    exact allocPage_mem (by rw [hqe]; exact hb)
  have hnew : readPte (clearPage q (writePte a (mkEntry q 1) (allocPage 1 m).2)) a = mkEntry q 1 := by
    rw [readPte_congr (m := writePte a (mkEntry q 1) (allocPage 1 m).2),
      readPte_writePte_self _ _ (mkEntry_lt hq (by norm_num))]
    intro i hi
    refine clearPage_mem ?_
    unfold InPage
    omega
  have hzero (k : ℕ) (hk : k < 512) :
      readPte (clearPage q (writePte a (mkEntry q 1) (allocPage 1 m).2)) (q + 8 * k) = 0 :=
    readPte_clearPage hk
  refine ⟨Function.update own q o, ?_, made_tablesOk H T hp hpr hq hu hold hnew hzero, ⟨?_, ?_, ?_, ?_, ?_⟩,
    ?_, ?_, ?_, ⟨hB.old, hB.fresh⟩, 1, ⟨hT.sum, hT.fresh, hT.curr, hT.log⟩, Or.inr ⟨rfl, hno⟩, fun o' ho' => Has.update hu ho'⟩
  · have H2 := H1.retag (p := q) (o := o) (by rw [Function.update_self]; exact ⟨nofun, nofun⟩) hp.below.used
    rw [Function.update_idem] at H2
    refine H2.congr (fun f hf b hb => ?_) rfl rfl rfl
    have hfq : f ≠ q := by
      rintro rfl
      rw [Function.update_self] at hf
      exact hp.below.used.2 hf
    rw [Function.update_of_ne hfq] at hf
    have hfm := H.aligned f (by rw [hf]; exact nofun)
    have hfp : f ≠ p := by
      rintro rfl
      exact hup.2 hf
    unfold InPage at hb
    refine (clearPage_mem (by unfold InPage; omega)).trans (putLe_out (by omega))
  · exact fun x hx => Function.update_of_ne (fun h => hu (by rw [← h]; exact hx)) _ _
  · intro x hx
    have hxq : x = q := by
      by_contra h
      exact hx (Function.update_of_ne h _ _)
    rw [hxq, Function.update_self]
    exact ⟨hu, hp.below⟩
  · intro x hx k _ i hi
    have hxq : x = q := by
      by_contra h
      exact hx (Function.update_of_ne h _ _)
    rw [hxq]
    exact hzero i hi
  · intro b hb
    by_cases hbq : InPage q b
    · refine Or.inl ⟨q, hbq, ?_⟩
      rw [Function.update_self]
      exact fun h => hu (by rw [← h]; exact hp.below.used)
    · refine Or.inr ⟨a, o, hp.mono fun x hx => ?_, ?_⟩
      · exact Function.update_of_ne (fun h => hu (by rw [← h]; exact hx)) _ _
      · by_contra h
        exact hb (hold b hbq h)
  · exact (allocPage_rest 1 m).trans ((writePte_rest _ _ _).trans (clearPage_rest _ _))
  · rw [hnew, present_mkEntry]
  · rw [hnew, target_mkEntry hq (by norm_num), Function.update_self]
  · obtain ⟨live, freed, hi, -, -⟩ := H
    exact (allocPage_curr m 1 hi.curr.1 (by omega)).2

end ensure

/-! ## The entry of an address -/

/-- The entry of a page number; an address without a last table has the entry 0. -/
def entry (m : Memory) (r v : ℕ) : ℕ :=
  match getPte (v * 4096) r m with
  | none => 0
  | some a => readPte m a

/-- `get_pte` looks at the page number only. -/
theorem getPte_vpn (va r : ℕ) (m : Memory) : getPte va r m = getPte (vpn va * 4096) r m := by
  have h := vpn_mul (vpn_lt va)
  unfold getPte
  rw [getVpn2_eq va, getVpn1_eq va, getVpn0_eq va, getVpn2_eq (_ * _), getVpn1_eq (_ * _), getVpn0_eq (_ * _), h]

theorem entry_eq {m : Memory} {va r a : ℕ} (h : getPte va r m = some a) : entry m r (vpn va) = readPte m a := by
  unfold entry
  rw [← getPte_vpn, h]

section walk
variable {m : Memory} {own : ℕ → Owner} {r va a t k : ℕ} (T : TablesOk m own)
include T

/-- The way from the root to a last table. -/
theorem TablesOk.path (ht : own t = .tab r k) : ∃ p i j, own r = .root ∧ own p = .mid r i ∧ i < 256 ∧ j < 512 ∧
    k = 512 * i + j ∧ (Present (readPte m (r + 8 * i)) ∧ target (readPte m (r + 8 * i)) = p) ∧
    Present (readPte m (p + 8 * j)) ∧ target (readPte m (p + 8 * j)) = t := by
  obtain ⟨e1, hpl1, h1⟩ := T.up (p := t) (r := r) (by rw [ht]; rfl)
  rw [ht] at hpl1
  generalize ho : Owner.tab r k = o at hpl1
  cases hpl1 with
  | mid hr hi => cases ho
  | tab hp hj =>
    rename_i p i j
    cases ho
    obtain ⟨e2, hpl2, h2⟩ := T.up (p := p) (r := r) (by rw [hp]; rfl)
    rw [hp] at hpl2
    generalize ho : Owner.mid r i = o at hpl2
    cases hpl2 with
    | tab hp' hj' => cases ho
    | mid hr hi =>
      cases ho
      exact ⟨p, i, j, hr, hp, hi, hj, rfl, h2, h1⟩

/-- `get_pte` finds the table of the place. -/
theorem TablesOk.getPte_tab (ht : own t = .tab r k) (hk : vpn va / 512 = k) :
    getPte va r m = some (t + 8 * (vpn va % 512)) := by
  obtain ⟨p, i, j, -, -, hi, hj, rfl, ⟨hpr2, ht2⟩, hpr1, ht1⟩ := T.path ht
  have h2 : getVpn2 va = i := by rw [getVpn2_eq]; omega
  have h1 : getVpn1 va = j := by rw [getVpn1_eq]; omega
  unfold target at ht1 ht2
  unfold getPte
  dsimp only
  rw [h2, h1, getVpn0_eq, if_neg hpr2, ht2, if_neg hpr1, ht1]

/-- What `get_pte` finds for a user address. -/
theorem TablesOk.getPte_iff (hr : own r = .root) (hv : vpn va < userPages) :
    getPte va r m = some a ↔ ∃ t, own t = .tab r (vpn va / 512) ∧ a = t + 8 * (vpn va % 512) := by
  constructor
  · intro h
    unfold getPte at h
    dsimp only at h
    split at h
    · cases h
    · rename_i h2
      split at h
      · cases h
      · rename_i h1
        cases h
        have hi : getVpn2 va < 256 := (getVpn2_lt va).2 hv
        have hmid := T.down (.mid hr hi) h2
        have hj : getVpn1 va < 512 := Nat.mod_lt _ (by norm_num)
        have htab := T.down (.tab hmid hj) h1
        refine ⟨_, ?_, by rw [← getVpn0_eq]⟩
        rw [show vpn va / 512 = 512 * getVpn2 va + getVpn1 va by rw [getVpn2_eq, getVpn1_eq]; omega]
        exact htab
  · rintro ⟨t, ht, rfl⟩
    exact T.getPte_tab ht rfl

theorem TablesOk.tab_unique {t' : ℕ} (ht : own t = .tab r k) (ht' : own t' = .tab r k) : t = t' := by
  obtain ⟨p, i, j, -, -, hi, hj, hk, -⟩ := T.path ht
  have hv : vpn (512 * k * 4096) / 512 = k := by
    rw [vpn_mul (by omega)]
    omega
  have h := (T.getPte_tab ht hv).symm.trans (T.getPte_tab ht' hv)
  injection h with h
  omega

/-- Tables belong to user addresses. -/
theorem TablesOk.tab_lt (ht : own t = .tab r k) : k < 2 ^ 17 := by
  obtain ⟨p, i, j, -, -, hi, hj, rfl, -⟩ := T.path ht
  omega

theorem TablesOk.entry_tab (ht : own t = .tab r k) {j : ℕ} (hj : j < 512) :
    entry m r (512 * k + j) = readPte m (t + 8 * j) := by
  have hk := T.tab_lt ht
  have hv : vpn ((512 * k + j) * 4096) = 512 * k + j := vpn_mul (by omega)
  unfold entry
  rw [T.getPte_tab ht (by omega), hv, show (512 * k + j) % 512 = j by omega]

theorem TablesOk.entry_none (hr : own r = .root) {v : ℕ} (hv : v < userPages)
    (h : ∀ t, own t ≠ .tab r (v / 512)) : entry m r v = 0 := by
  have hvv : vpn (v * 4096) = v := vpn_mul (hv.trans (by norm_num))
  unfold entry
  split
  · rfl
  · rename_i a ha
    obtain ⟨t, ht, -⟩ := (T.getPte_iff hr (by rw [hvv]; exact hv)).1 ha
    rw [hvv] at ht
    exact absurd ht (h t)

end walk

end RiscvKernel.Mm
