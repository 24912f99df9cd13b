import RiscvKernel.Mm.Map

/-!
# map_page changes one translation

`get_pte` goes from the root table over a middle table to a last table. `TreeOn V` says of the tables that it
meets on the way to the page numbers in `V` that none of them is met at two places. `V` is the whole address
space, or the part of it that is not covered by large pages. In such a tree `map_page` hangs up the tables
that are missing, writes one entry, and the other page numbers in `V` keep theirs (`mapPage_one`).
-/

namespace RiscvKernel.Mm

open Lib

/-! ## The way to a page number -/

section way
variable (m : Memory) (r v : ℕ)

/-- The entry of the root table. -/
def slot2 : ℕ := r + 8 * (v / 2 ^ 18)

/-- The middle table. -/
def midAt : ℕ := target (readPte m (slot2 r v))

def slot1 : ℕ := midAt m r v + 8 * (v / 2 ^ 9 % 512)

/-- The last table. -/
def tabAt : ℕ := target (readPte m (slot1 m r v))

def slot0 : ℕ := tabAt m r v + 8 * (v % 512)

def HasMid : Prop := Present (readPte m (slot2 r v))

def HasTab : Prop := HasMid m r v ∧ Present (readPte m (slot1 m r v))

instance : Decidable (HasMid m r v) := inferInstanceAs (Decidable (Present _))
instance : Decidable (HasTab m r v) := inferInstanceAs (Decidable (_ ∧ _))

end way

/-- `get_pte` goes this way. -/
theorem getPte_walk (va r : ℕ) (m : Memory) :
    getPte va r m = if HasTab m r (vpn va) then some (slot0 m r (vpn va)) else none := by
  have h2 : r + 8 * getVpn2 va = slot2 r (vpn va) := by rw [getVpn2_eq, slot2]
  have h1 : pa2kva (getPa (readPte m (slot2 r (vpn va)))) + 8 * getVpn1 va = slot1 m r (vpn va) := by
    rw [getVpn1_eq, slot1, midAt, target]
  have h0 : pa2kva (getPa (readPte m (slot1 m r (vpn va)))) + 8 * getVpn0 va = slot0 m r (vpn va) := by
    rw [getVpn0_eq, slot0, tabAt, target]
  unfold getPte
  dsimp only
  rw [h2, h1, h0]
  by_cases hmid : getAttribute (readPte m (slot2 r (vpn va))) pagePresent = 0
  · have hno : ¬ HasTab m r (vpn va) := fun h => h.1 hmid
    rw [if_pos hmid, if_neg hno]
  · rw [if_neg hmid]
    by_cases htab : getAttribute (readPte m (slot1 m r (vpn va))) pagePresent = 0
    · have hno : ¬ HasTab m r (vpn va) := fun h => h.2 htab
      rw [if_pos htab, if_neg hno]
    · have hyes : HasTab m r (vpn va) := ⟨hmid, htab⟩
      rw [if_neg htab, if_pos hyes]

/-- The tables on the ways to `V` are all different. -/
structure TreeOn (V : Set ℕ) (m : Memory) (r : ℕ) : Prop where
  bound : ∀ v ∈ V, v < 2 ^ 27
  root : r % 4096 = 0
  mid : ∀ v ∈ V, HasMid m r v → midAt m r v ≠ r
  mid_inj : ∀ v ∈ V, ∀ w ∈ V, HasMid m r v → HasMid m r w → midAt m r v = midAt m r w → v / 2 ^ 18 = w / 2 ^ 18
  tab : ∀ v ∈ V, HasTab m r v → tabAt m r v ≠ r
  tab_mid : ∀ v ∈ V, ∀ w ∈ V, HasTab m r v → HasMid m r w → tabAt m r v ≠ midAt m r w
  tab_inj : ∀ v ∈ V, ∀ w ∈ V, HasTab m r v → HasTab m r w → tabAt m r v = tabAt m r w → v / 2 ^ 9 = w / 2 ^ 9

/-- A page is one of the tables. -/
def TablePage (V : Set ℕ) (m : Memory) (r p : ℕ) : Prop :=
  p = r ∨ ∃ v ∈ V, HasMid m r v ∧ p = midAt m r v ∨ HasTab m r v ∧ p = tabAt m r v

/-- What `allocPage` returns when a table is missing on the way to `v` is a page that is not a table. -/
structure AllocOutside (V : Set ℕ) (m : Memory) (r v : ℕ) : Prop where
  mid : ¬ HasMid m r v → IsPage (allocPage 1 m).1 ∧ ¬ TablePage V m r (allocPage 1 m).1
  tab : ¬ HasTab (ensureTable (slot2 r v) m) r v →
    IsPage (allocPage 1 (ensureTable (slot2 r v) m)).1 ∧
      ¬ TablePage V (ensureTable (slot2 r v) m) r (allocPage 1 (ensureTable (slot2 r v) m)).1

/-- The entries of the page numbers in `V` are kept, those that are new are empty. -/
structure KeepsOn (V : Set ℕ) (m m' : Memory) (r : ℕ) : Prop where
  old : ∀ v ∈ V, HasTab m r v → HasTab m' r v ∧ slot0 m' r v = slot0 m r v ∧
    readPte m' (slot0 m r v) = readPte m (slot0 m r v)
  new : ∀ v ∈ V, ¬ HasTab m r v → HasTab m' r v → readPte m' (slot0 m' r v) = 0

theorem target_mod (e : ℕ) : target e % 4096 = 0 := by
  unfold target pa2kva getPa kvaPaOffset
  omega

section tree
variable {V : Set ℕ} {m m' m'' : Memory} {r v w : ℕ}

theorem KeepsOn.refl (V : Set ℕ) (m : Memory) (r : ℕ) : KeepsOn V m m r :=
  ⟨fun _ _ h => ⟨h, rfl, rfl⟩, fun _ _ h h' => absurd h' h⟩

theorem KeepsOn.trans (h : KeepsOn V m m' r) (h' : KeepsOn V m' m'' r) : KeepsOn V m m'' r := by
  refine ⟨fun v hv ht => ?_, fun v hv hn ht => ?_⟩
  · obtain ⟨h1, h2, h3⟩ := h.old v hv ht
    obtain ⟨h4, h5, h6⟩ := h'.old v hv h1
    rw [h2] at h5 h6
    exact ⟨h4, h5, h6.trans h3⟩
  · by_cases hmid : HasTab m' r v
    · obtain ⟨-, h5, h6⟩ := h'.old v hv hmid
      rw [h5, h6]
      exact h.new v hv hn hmid
    · exact h'.new v hv hmid ht

/-! ## A new table -/

/-- An empty table `q` is hung at the entry `a`. -/
structure Hung (m m' : Memory) (q a : ℕ) : Prop where
  page : IsPage q
  entry : a % 8 = 0
  hold : ∀ b, ¬ InPage q b → ¬ (a ≤ b ∧ b < a + 8) → m'.mem b = m.mem b
  new : readPte m' a = mkEntry q 1
  zero : ∀ j < 512, readPte m' (q + 8 * j) = 0

section hung
variable {q a p j : ℕ}

theorem Hung.read (h : Hung m m' q a) (hp : p % 4096 = 0) (hj : j < 512) (hq : p ≠ q) (ha : p + 8 * j ≠ a) :
    readPte m' (p + 8 * j) = readPte m (p + 8 * j) := by
  have h1 := h.page.1
  have h2 := h.entry
  refine readPte_congr fun i hi => h.hold _ ?_ (by omega)
  unfold InPage
  omega

theorem Hung.present (h : Hung m m' q a) : Present (readPte m' a) := by
  rw [h.new, present_mkEntry]

theorem Hung.target (h : Hung m m' q a) : target (readPte m' a) = q := by
  rw [h.new, target_mkEntry h.page (by norm_num)]

/-- **A missing table is made.** -/
theorem ensureTable_hung (hp : p % 4096 = 0) (hj : j < 512) (hpr : ¬ Present (readPte m (p + 8 * j)))
    (hq : IsPage (allocPage 1 m).1) (hne : p ≠ (allocPage 1 m).1) :
    Hung m (ensureTable (p + 8 * j) m) (allocPage 1 m).1 (p + 8 * j) := by
  have h1 := hq.1
  rw [ensureTable_of_not_present hpr hq]
  generalize hqe : (allocPage 1 m).1 = q at *
  have hout (b : ℕ) (hb : p + 8 * j ≤ b ∧ b < p + 8 * j + 8) : ¬ InPage q b := by
    unfold InPage
    omega
  refine ⟨hq, by omega, fun b hb hn => ?_, ?_, fun k hk => readPte_clearPage hk⟩
  · have halloc : (allocPage 1 m).2.mem b = m.mem b := allocPage_mem (by rwa [hqe])
    rw [clearPage_mem hb, ← halloc]
    exact putLe_out (by omega)
  · rw [readPte_congr fun i hi => clearPage_mem (hout _ ⟨by omega, by omega⟩)]
    exact readPte_writePte_self _ _ (mkEntry_lt hq (by norm_num))

end hung

/-- An entry of another page is another entry. -/
theorem entry_ne {p q j k : ℕ} (hp : p % 4096 = 0) (hq : q % 4096 = 0) (hj : j < 512) (hk : k < 512) (h : p ≠ q) :
    p + 8 * j ≠ q + 8 * k := by
  omega

/-! ## The tables after one is added -/

/-- The ways in `m'` are those in `m`, but for one table `q` that is new. -/
structure Grown (V : Set ℕ) (m m' : Memory) (r q : ℕ) : Prop where
  mid : ∀ v ∈ V, HasMid m r v → HasMid m' r v ∧ midAt m' r v = midAt m r v
  tab : ∀ v ∈ V, HasTab m r v → HasTab m' r v ∧ tabAt m' r v = tabAt m r v
  newMid : ∀ v ∈ V, HasMid m' r v → ¬ HasMid m r v → midAt m' r v = q
  newTab : ∀ v ∈ V, HasTab m' r v → ¬ HasTab m r v → tabAt m' r v = q
  oneMid : ∀ v ∈ V, ∀ w ∈ V, HasMid m' r v → ¬ HasMid m r v → HasMid m' r w → ¬ HasMid m r w →
    v / 2 ^ 18 = w / 2 ^ 18
  oneTab : ∀ v ∈ V, ∀ w ∈ V, HasTab m' r v → ¬ HasTab m r v → HasTab m' r w → ¬ HasTab m r w →
    v / 2 ^ 9 = w / 2 ^ 9
  one : ∀ v ∈ V, ∀ w ∈ V, HasTab m' r v → ¬ HasTab m r v → HasMid m' r w → HasMid m r w

/-- **The tables are still different** when the new one was no table. -/
theorem Grown.tree {q : ℕ} (G : Grown V m m' r q) (T : TreeOn V m r) (hq : ¬ TablePage V m r q) : TreeOn V m' r := by
  have hmid (v : ℕ) (hv : v ∈ V) (h : HasMid m r v) : midAt m r v ≠ q :=
    fun e => hq (Or.inr ⟨v, hv, Or.inl ⟨h, e.symm⟩⟩)
  have htab (v : ℕ) (hv : v ∈ V) (h : HasTab m r v) : tabAt m r v ≠ q :=
    fun e => hq (Or.inr ⟨v, hv, Or.inr ⟨h, e.symm⟩⟩)
  have hr : q ≠ r := fun e => hq (Or.inl e)
  refine ⟨T.bound, T.root, fun v hv h => ?_, fun v hv w hw h h' e => ?_, fun v hv h => ?_, fun v hv w hw h h' => ?_,
    fun v hv w hw h h' e => ?_⟩
  · by_cases ho : HasMid m r v
    · rw [(G.mid v hv ho).2]
      exact T.mid v hv ho
    · rwa [G.newMid v hv h ho]
  · by_cases ho : HasMid m r v <;> by_cases ho' : HasMid m r w
    · rw [(G.mid v hv ho).2, (G.mid w hw ho').2] at e
      exact T.mid_inj v hv w hw ho ho' e
    · rw [(G.mid v hv ho).2, G.newMid w hw h' ho'] at e
      exact absurd e (hmid v hv ho)
    · rw [G.newMid v hv h ho, (G.mid w hw ho').2] at e
      exact absurd e.symm (hmid w hw ho')
    · exact G.oneMid v hv w hw h ho h' ho'
  · by_cases ho : HasTab m r v
    · rw [(G.tab v hv ho).2]
      exact T.tab v hv ho
    · rwa [G.newTab v hv h ho]
  · by_cases ho : HasTab m r v
    · rw [(G.tab v hv ho).2]
      by_cases ho' : HasMid m r w
      · rw [(G.mid w hw ho').2]
        exact T.tab_mid v hv w hw ho ho'
      · rw [G.newMid w hw h' ho']
        exact htab v hv ho
    · have ho' := G.one v hv w hw h ho h'
      rw [G.newTab v hv h ho, (G.mid w hw ho').2]
      exact (hmid w hw ho').symm
  · by_cases ho : HasTab m r v <;> by_cases ho' : HasTab m r w
    · rw [(G.tab v hv ho).2, (G.tab w hw ho').2] at e
      exact T.tab_inj v hv w hw ho ho' e
    · rw [(G.tab v hv ho).2, G.newTab w hw h' ho'] at e
      exact absurd e (htab v hv ho)
    · rw [G.newTab v hv h ho, (G.tab w hw ho').2] at e
      exact absurd e.symm (htab w hw ho')
    · exact G.oneTab v hv w hw h ho h' ho'

theorem slot1_congr {m m' : Memory} (h : midAt m' r v = midAt m r v) : slot1 m' r v = slot1 m r v := by
  unfold slot1
  rw [h]

theorem slot0_congr {m m' : Memory} (h : tabAt m' r v = tabAt m r v) : slot0 m' r v = slot0 m r v := by
  unfold slot0
  rw [h]

section mid
variable {q : ℕ} (T : TreeOn V m r) (hv : v ∈ V) (hq : ¬ TablePage V m r q) (H : Hung m m' q (slot2 r v))
  (hno : ¬ HasMid m r v)
include T hv hq H hno

omit hv hno in
/-- A middle table is new: the other entries of the root table are kept. -/
theorem hungMid_slot2 (hw : w ∈ V) (hne : w / 2 ^ 18 ≠ v / 2 ^ 18) :
    readPte m' (slot2 r w) = readPte m (slot2 r w) := by
  have hb := T.bound w hw
  refine H.read T.root (by omega) (fun e => hq (Or.inl e.symm)) ?_
  unfold slot2
  omega

omit hv in
theorem hungMid_old (hw : w ∈ V) (h : HasMid m r w) : HasMid m' r w ∧ midAt m' r w = midAt m r w := by
  have hne : w / 2 ^ 18 ≠ v / 2 ^ 18 := by
    intro e
    unfold HasMid slot2 at h hno
    rw [e] at h
    exact hno h
  have hread := hungMid_slot2 T hq H hw hne
  refine ⟨?_, ?_⟩
  · unfold HasMid
    rwa [hread]
  · unfold midAt
    rw [hread]

omit hno in
theorem hungMid_slot1 (hw : w ∈ V) (h : HasMid m r w) : readPte m' (slot1 m r w) = readPte m (slot1 m r w) := by
  have hb := T.bound v hv
  have hmod : midAt m r w % 4096 = 0 := target_mod _
  refine H.read hmod (Nat.mod_lt _ (by norm_num)) (fun e => hq (Or.inr ⟨w, hw, Or.inl ⟨h, e.symm⟩⟩)) ?_
  exact entry_ne hmod T.root (Nat.mod_lt _ (by norm_num)) (by omega) (T.mid w hw h)

theorem hungMid_tab (hw : w ∈ V) (h : HasTab m r w) : HasTab m' r w ∧ tabAt m' r w = tabAt m r w := by
  obtain ⟨h1, h2⟩ := hungMid_old T hq H hno hw h.1
  have hread := hungMid_slot1 T hv hq H hw h.1
  refine ⟨⟨h1, ?_⟩, ?_⟩
  · rw [slot1_congr h2, hread]
    exact h.2
  · unfold tabAt
    rw [slot1_congr h2, hread]

omit hv hno in
/-- The new table is empty. -/
theorem hungMid_new (hw : w ∈ V) (h : HasMid m' r w) (hn : ¬ HasMid m r w) :
    w / 2 ^ 18 = v / 2 ^ 18 ∧ midAt m' r w = q ∧ ¬ HasTab m' r w := by
  have he : w / 2 ^ 18 = v / 2 ^ 18 := by
    by_contra hne
    unfold HasMid at h
    rw [hungMid_slot2 T hq H hw hne] at h
    exact hn h
  have hslot : slot2 r w = slot2 r v := by rw [slot2, slot2, he]
  have hmid : midAt m' r w = q := by rw [midAt, hslot, H.target]
  refine ⟨he, hmid, fun ht => ?_⟩
  have h2 := ht.2
  rw [slot1, hmid, H.zero _ (Nat.mod_lt _ (by norm_num))] at h2
  exact not_present_zero h2

theorem hungMid_tab_old (hw : w ∈ V) (h : HasTab m' r w) : HasTab m r w := by
  by_cases ho : HasMid m r w
  · obtain ⟨-, h2⟩ := hungMid_old T hq H hno hw ho
    have h3 := h.2
    rw [slot1_congr h2, hungMid_slot1 T hv hq H hw ho] at h3
    exact ⟨ho, h3⟩
  · exact absurd h (hungMid_new T hq H hw h.1 ho).2.2

/-- **A new middle table.** -/
theorem hungMid_spec : TreeOn V m' r ∧ KeepsOn V m m' r := by
  have hb := T.bound v hv
  have G : Grown V m m' r q :=
    { mid := fun w hw => hungMid_old T hq H hno hw
      tab := fun w hw => hungMid_tab T hv hq H hno hw
      newMid := fun w hw h hn => (hungMid_new T hq H hw h hn).2.1
      newTab := fun w hw h hn => absurd (hungMid_tab_old T hv hq H hno hw h) hn
      oneMid := fun w hw w' hw' h hn h' hn' => (hungMid_new T hq H hw h hn).1.trans
        (hungMid_new T hq H hw' h' hn').1.symm
      oneTab := fun w hw _ _ h hn _ _ => absurd (hungMid_tab_old T hv hq H hno hw h) hn
      one := fun w hw _ _ h hn _ => absurd (hungMid_tab_old T hv hq H hno hw h) hn }
  refine ⟨G.tree T hq, fun w hw h => ?_, fun w hw hn h => absurd (hungMid_tab_old T hv hq H hno hw h) hn⟩
  obtain ⟨h1, h2⟩ := G.tab w hw h
  have hmod : tabAt m r w % 4096 = 0 := target_mod _
  refine ⟨h1, slot0_congr h2, ?_⟩
  refine H.read hmod (Nat.mod_lt _ (by norm_num)) (fun e => hq (Or.inr ⟨w, hw, Or.inr ⟨h, e.symm⟩⟩)) ?_
  exact entry_ne hmod T.root (Nat.mod_lt _ (by norm_num)) (by omega) (T.tab w hw h)

end mid

section tab
variable {q : ℕ} (T : TreeOn V m r) (hv : v ∈ V) (hq : ¬ TablePage V m r q) (hmid : HasMid m r v)
  (H : Hung m m' q (slot1 m r v)) (hno : ¬ HasTab m r v)
include T hv hq hmid H hno

omit hno in
/-- A last table is new: the middle tables are kept. -/
theorem hungTab_mid (hw : w ∈ V) : (HasMid m' r w ↔ HasMid m r w) ∧ midAt m' r w = midAt m r w := by
  have hb := T.bound w hw
  have hread : readPte m' (slot2 r w) = readPte m (slot2 r w) := by
    refine H.read T.root (by omega) (fun e => hq (Or.inl e.symm)) ?_
    exact entry_ne T.root (target_mod _) (by omega) (Nat.mod_lt _ (by norm_num)) (T.mid v hv hmid).symm
  refine ⟨?_, ?_⟩
  · unfold HasMid
    rw [hread]
  · unfold midAt
    rw [hread]

omit hno in
theorem hungTab_slot1 (hw : w ∈ V) (h : HasMid m r w) (hne : w / 2 ^ 9 ≠ v / 2 ^ 9) :
    readPte m' (slot1 m r w) = readPte m (slot1 m r w) := by
  have hmod : midAt m r w % 4096 = 0 := target_mod _
  have hmod' : midAt m r v % 4096 = 0 := target_mod _
  refine H.read hmod (Nat.mod_lt _ (by norm_num)) (fun e => hq (Or.inr ⟨w, hw, Or.inl ⟨h, e.symm⟩⟩)) ?_
  show midAt m r w + 8 * (w / 2 ^ 9 % 512) ≠ midAt m r v + 8 * (v / 2 ^ 9 % 512)
  by_cases he : midAt m r w = midAt m r v
  · have := T.mid_inj w hw v hv h hmid he
    omega
  · exact entry_ne hmod hmod' (Nat.mod_lt _ (by norm_num)) (Nat.mod_lt _ (by norm_num)) he

theorem hungTab_old (hw : w ∈ V) (h : HasTab m r w) : HasTab m' r w ∧ tabAt m' r w = tabAt m r w := by
  obtain ⟨h1, h2⟩ := hungTab_mid T hv hq hmid H hw
  have hne : w / 2 ^ 9 ≠ v / 2 ^ 9 := by
    intro e
    have h18 : w / 2 ^ 18 = v / 2 ^ 18 := by omega
    have hm : midAt m r w = midAt m r v := by rw [midAt, midAt, slot2, slot2, h18]
    have h3 := h.2
    rw [slot1, hm, e] at h3
    exact hno ⟨hmid, h3⟩
  have hread := hungTab_slot1 T hv hq hmid H hw h.1 hne
  refine ⟨⟨h1.2 h.1, ?_⟩, ?_⟩
  · rw [slot1_congr h2, hread]
    exact h.2
  · unfold tabAt
    rw [slot1_congr h2, hread]

omit hno in
theorem hungTab_new (hw : w ∈ V) (h : HasTab m' r w) (hn : ¬ HasTab m r w) :
    w / 2 ^ 9 = v / 2 ^ 9 ∧ tabAt m' r w = q := by
  obtain ⟨h1, h2⟩ := hungTab_mid T hv hq hmid H hw
  have hm := h1.1 h.1
  have he : w / 2 ^ 9 = v / 2 ^ 9 := by
    by_contra hne
    have h3 := h.2
    rw [slot1_congr h2, hungTab_slot1 T hv hq hmid H hw hm hne] at h3
    exact hn ⟨hm, h3⟩
  have h18 : w / 2 ^ 18 = v / 2 ^ 18 := by omega
  have hslot : slot1 m' r w = slot1 m r v := by
    rw [slot1_congr h2, slot1, slot1, midAt, midAt, slot2, slot2, h18, he]
  exact ⟨he, by rw [tabAt, hslot, H.target]⟩

/-- **A new last table.** -/
theorem hungTab_spec : TreeOn V m' r ∧ KeepsOn V m m' r := by
  have hback {w : ℕ} (hw : w ∈ V) : HasMid m' r w → HasMid m r w := (hungTab_mid T hv hq hmid H hw).1.1
  have G : Grown V m m' r q :=
    { mid := fun w hw h => ⟨(hungTab_mid T hv hq hmid H hw).1.2 h, (hungTab_mid T hv hq hmid H hw).2⟩
      tab := fun w hw => hungTab_old T hv hq hmid H hno hw
      newMid := fun w hw h hn => absurd (hback hw h) hn
      newTab := fun w hw h hn => (hungTab_new T hv hq hmid H hw h hn).2
      oneMid := fun w hw _ _ h hn _ _ => absurd (hback hw h) hn
      oneTab := fun w hw w' hw' h hn h' hn' => (hungTab_new T hv hq hmid H hw h hn).1.trans
        (hungTab_new T hv hq hmid H hw' h' hn').1.symm
      one := fun _ _ _ hw' _ _ h' => hback hw' h' }
  refine ⟨G.tree T hq, fun w hw h => ?_, fun w hw hn h => ?_⟩
  · obtain ⟨h1, h2⟩ := G.tab w hw h
    have hmod : tabAt m r w % 4096 = 0 := target_mod _
    refine ⟨h1, slot0_congr h2, ?_⟩
    refine H.read hmod (Nat.mod_lt _ (by norm_num)) (fun e => hq (Or.inr ⟨w, hw, Or.inr ⟨h, e.symm⟩⟩)) ?_
    exact entry_ne hmod (target_mod _) (Nat.mod_lt _ (by norm_num)) (Nat.mod_lt _ (by norm_num))
      (T.tab_mid w hw v hv h hmid)
  · rw [slot0, (hungTab_new T hv hq hmid H hw h hn).2]
    exact H.zero _ (Nat.mod_lt _ (by norm_num))

end tab

/-! ## The entry -/

section leaf
variable {e : ℕ} (T : TreeOn V m r) (hv : v ∈ V) (ht : HasTab m r v)
include T hv ht

/-- A write to the last table of `v` does not change the ways. -/
theorem setLeaf_ways (hw : w ∈ V) : (HasMid (writePte (slot0 m r v) e m) r w ↔ HasMid m r w) ∧
    midAt (writePte (slot0 m r v) e m) r w = midAt m r w ∧
    (HasTab (writePte (slot0 m r v) e m) r w ↔ HasTab m r w) ∧
    (HasMid m r w → tabAt (writePte (slot0 m r v) e m) r w = tabAt m r w) := by
  have hb := T.bound w hw
  have hroot := T.root
  have hmod : tabAt m r v % 4096 = 0 := target_mod _
  have h2 : readPte (writePte (slot0 m r v) e m) (slot2 r w) = readPte m (slot2 r w) := by
    have hne := T.tab v hv ht
    refine readPte_writePte_of_disjoint ?_
    unfold slot2 slot0
    omega
  have hmid : midAt (writePte (slot0 m r v) e m) r w = midAt m r w := by
    unfold midAt
    rw [h2]
  have hhas : HasMid (writePte (slot0 m r v) e m) r w ↔ HasMid m r w := by
    unfold HasMid
    rw [h2]
  have h1 (hm : HasMid m r w) : readPte (writePte (slot0 m r v) e m) (slot1 m r w) = readPte m (slot1 m r w) := by
    have hne := T.tab_mid v hv w hw ht hm
    have hmod' : midAt m r w % 4096 = 0 := target_mod _
    refine readPte_writePte_of_disjoint ?_
    unfold slot1 slot0
    omega
  refine ⟨hhas, hmid, ?_, fun hm => ?_⟩
  · unfold HasTab
    rw [slot1_congr hmid, hhas]
    refine and_congr_right fun hm => ?_
    rw [h1 hm]
  · unfold tabAt
    rw [slot1_congr hmid, h1 hm]

/-- The entries of other page numbers are kept. -/
theorem setLeaf_other (hw : w ∈ V) (ht' : HasTab m r w) (hne : w ≠ v) :
    readPte (writePte (slot0 m r v) e m) (slot0 m r w) = readPte m (slot0 m r w) := by
  have hmod : tabAt m r v % 4096 = 0 := target_mod _
  have hmod' : tabAt m r w % 4096 = 0 := target_mod _
  refine readPte_writePte_of_disjoint ?_
  unfold slot0
  by_cases he : tabAt m r w = tabAt m r v
  · have := T.tab_inj w hw v hv ht' ht he
    omega
  · omega

theorem setLeaf_tree : TreeOn V (writePte (slot0 m r v) e m) r := by
  have W {w : ℕ} (hw : w ∈ V) := setLeaf_ways (e := e) T hv ht hw
  refine ⟨T.bound, T.root, fun w hw h => ?_, fun w hw w' hw' h h' he => ?_, fun w hw h => ?_,
    fun w hw w' hw' h h' => ?_, fun w hw w' hw' h h' he => ?_⟩
  · obtain ⟨h1, h2, -⟩ := W hw
    rw [h2]
    exact T.mid w hw (h1.1 h)
  · obtain ⟨h1, h2, -⟩ := W hw
    obtain ⟨h1', h2', -⟩ := W hw'
    rw [h2, h2'] at he
    exact T.mid_inj w hw w' hw' (h1.1 h) (h1'.1 h') he
  · obtain ⟨-, -, h3, h4⟩ := W hw
    rw [h4 (h3.1 h).1]
    exact T.tab w hw (h3.1 h)
  · obtain ⟨-, -, h3, h4⟩ := W hw
    obtain ⟨h1', h2', -⟩ := W hw'
    rw [h4 (h3.1 h).1, h2']
    exact T.tab_mid w hw w' hw' (h3.1 h) (h1'.1 h')
  · obtain ⟨-, -, h3, h4⟩ := W hw
    obtain ⟨-, -, h3', h4'⟩ := W hw'
    rw [h4 (h3.1 h).1, h4' (h3'.1 h').1] at he
    exact T.tab_inj w hw w' hw' (h3.1 h) (h3'.1 h') he

end leaf

/-- **The tables on the way to `v` are made.** -/
theorem ensureTables (T : TreeOn V m r) (hv : v ∈ V) (A : AllocOutside V m r v) :
    ∃ m', m' = ensureTable (slot1 (ensureTable (slot2 r v) m) r v) (ensureTable (slot2 r v) m) ∧
      TreeOn V m' r ∧ KeepsOn V m m' r ∧ HasTab m' r v ∧ slot1 m' r v = slot1 (ensureTable (slot2 r v) m) r v := by
  -- the middle table
  have hmid : TreeOn V (ensureTable (slot2 r v) m) r ∧ KeepsOn V m (ensureTable (slot2 r v) m) r ∧
      HasMid (ensureTable (slot2 r v) m) r v := by
    by_cases h : HasMid m r v
    · rw [ensureTable_of_present h]
      exact ⟨T, KeepsOn.refl V m r, h⟩
    · obtain ⟨hpage, hout⟩ := A.mid h
      have H : Hung m (ensureTable (slot2 r v) m) (allocPage 1 m).1 (slot2 r v) :=
        ensureTable_hung T.root (by have := T.bound v hv; omega) h hpage fun e => hout (Or.inl e.symm)
      obtain ⟨h1, h2⟩ := hungMid_spec T hv hout H h
      exact ⟨h1, h2, H.present⟩
  have htab := A.tab
  generalize ensureTable (slot2 r v) m = m1 at hmid htab ⊢
  obtain ⟨T1, K1, hhas⟩ := hmid
  -- the last table
  by_cases h : HasTab m1 r v
  · rw [ensureTable_of_present h.2]
    exact ⟨m1, rfl, T1, K1, h, rfl⟩
  · obtain ⟨hpage, hout⟩ := htab h
    have hne : midAt m1 r v ≠ (allocPage 1 m1).1 := fun e => hout (Or.inr ⟨v, hv, Or.inl ⟨hhas, e.symm⟩⟩)
    have H : Hung m1 (ensureTable (slot1 m1 r v) m1) (allocPage 1 m1).1 (slot1 m1 r v) :=
      ensureTable_hung (target_mod _) (Nat.mod_lt _ (by norm_num)) (fun hp => h ⟨hhas, hp⟩) hpage hne
    obtain ⟨h1, h2⟩ := hungTab_spec T1 hv hout hhas H h
    obtain ⟨h3, h4⟩ := hungTab_mid T1 hv hout hhas H hv
    refine ⟨_, rfl, h1, K1.trans h2, ⟨h3.2 hhas, ?_⟩, slot1_congr h4⟩
    rw [slot1_congr h4]
    exact H.present

/-! ## map_page -/

/-- The entry that `map_page` writes. -/
def leafEntry (pa flags : ℕ) : ℕ := pa / 2 ^ 12 * 2 ^ 10 + mapFlags flags

section entry
variable {pa flags : ℕ}

theorem mapFlags_lt (hf : flags < 2 ^ 10) : mapFlags flags < 2 ^ 10 :=
  Nat.or_lt_two_pow (Nat.or_lt_two_pow (Nat.or_lt_two_pow hf (by decide)) (by decide)) (by decide)

theorem setLeafEntry_eq (hpa : pa < 2 ^ 56) (hf : flags < 2 ^ 10) (e : ℕ) :
    setAttribute (setPfn e (pa / pageSize)) (mapFlags flags) = leafEntry pa flags := by
  have h := mapFlags_lt hf
  unfold setAttribute
  rw [or_flags _ h]
  unfold setPfn leafEntry pageSize
  omega

theorem leafEntry_lt (hpa : pa < 2 ^ 56) (hf : flags < 2 ^ 10) : leafEntry pa flags < 2 ^ 64 := by
  have h := mapFlags_lt hf
  unfold leafEntry
  omega

theorem getPa_leafEntry (hpa : pa < 2 ^ 56) (hal : pa % 4096 = 0) (hf : flags < 2 ^ 10) :
    getPa (leafEntry pa flags) = pa := by
  have h := mapFlags_lt hf
  unfold getPa leafEntry
  omega

theorem leafEntry_flags (hf : flags < 2 ^ 10) : leafEntry pa flags % 2 ^ 10 = mapFlags flags := by
  have h := mapFlags_lt hf
  unfold leafEntry
  omega

/-- `map_page` makes the tables and writes the entry. -/
theorem mapPage_eq (va r : ℕ) (m : Memory) (hpa : pa < 2 ^ 56) (hf : flags < 2 ^ 10) {m2 : Memory}
    (h2 : m2 = ensureTable (slot1 (ensureTable (slot2 r (vpn va)) m) r (vpn va)) (ensureTable (slot2 r (vpn va)) m))
    (h1 : slot1 m2 r (vpn va) = slot1 (ensureTable (slot2 r (vpn va)) m) r (vpn va)) :
    mapPage va pa r flags m = writePte (slot0 m2 r (vpn va)) (leafEntry pa flags) m2 := by
  have e2 : r + 8 * getVpn2 va = slot2 r (vpn va) := by rw [getVpn2_eq, slot2]
  have e1 (m : Memory) : pa2kva (getPa (readPte m (slot2 r (vpn va)))) + 8 * getVpn1 va = slot1 m r (vpn va) := by
    rw [getVpn1_eq, slot1, midAt, target]
  have e0 : pa2kva (getPa (readPte m2 (slot1 m2 r (vpn va)))) + 8 * getVpn0 va = slot0 m2 r (vpn va) := by
    rw [getVpn0_eq, slot0, tabAt, target]
  have hpfn : setPfn (readPte m2 (slot0 m2 r (vpn va))) (pa / pageSize) < 2 ^ 64 := Nat.mod_lt _ (by norm_num)
  unfold mapPage
  dsimp only
  rw [e2, e1, ← h2, ← h1, e0, readPte_writePte_self _ _ hpfn, writePte_writePte]
  exact congrArg (fun e => writePte (slot0 m2 r (vpn va)) e m2) (setLeafEntry_eq hpa hf _)

end entry

/-- `va` has the frame `pa` and the flags, the other page numbers in `V` keep their entries, and where there
was none there is none or an empty one. -/
structure MapsOne (V : Set ℕ) (m m' : Memory) (r va pa flags : ℕ) : Prop where
  entry : ∃ a, getPte va r m' = some a ∧ getPa (readPte m' a) = pa ∧
    readPte m' a % 2 ^ 10 = flags ||| pagePresent ||| pageAccessed ||| pageDirty
  old : ∀ va', vpn va' ∈ V → vpn va' ≠ vpn va → ∀ a, getPte va' r m = some a →
    getPte va' r m' = some a ∧ readPte m' a = readPte m a
  new : ∀ va', vpn va' ∈ V → vpn va' ≠ vpn va → getPte va' r m = none → ∀ a, getPte va' r m' = some a →
    readPte m' a = 0

theorem mapsOne_leaf {m2 : Memory} {va pa flags : ℕ} (T : TreeOn V m2 r) (hv : vpn va ∈ V) (ht : HasTab m2 r (vpn va))
    (K : KeepsOn V m m2 r) (hpa : pa < 2 ^ 56) (hal : pa % 4096 = 0) (hf : flags < 2 ^ 10) :
    MapsOne V m (writePte (slot0 m2 r (vpn va)) (leafEntry pa flags) m2) r va pa flags := by
  generalize hm' : writePte (slot0 m2 r (vpn va)) (leafEntry pa flags) m2 = m'
  have hways {w : ℕ} (hw : w ∈ V) : (HasTab m' r w ↔ HasTab m2 r w) ∧ (HasTab m2 r w → slot0 m' r w = slot0 m2 r w) := by
    obtain ⟨-, -, h3, h4⟩ := setLeaf_ways (e := leafEntry pa flags) T hv ht hw
    rw [hm'] at h3 h4
    exact ⟨h3, fun h => slot0_congr (h4 h.1)⟩
  have hother {w : ℕ} (hw : w ∈ V) (h : HasTab m2 r w) (hne : w ≠ vpn va) :
      readPte m' (slot0 m2 r w) = readPte m2 (slot0 m2 r w) := by
    rw [← hm']
    exact setLeaf_other T hv ht hw h hne
  refine ⟨?_, fun va' hv' hne a ha => ?_, fun va' hv' hne hnone a ha => ?_⟩
  · have hself : readPte m' (slot0 m2 r (vpn va)) = leafEntry pa flags := by
      rw [← hm']
      exact readPte_writePte_self _ _ (leafEntry_lt hpa hf)
    refine ⟨slot0 m2 r (vpn va), ?_, ?_, ?_⟩
    · rw [getPte_walk, if_pos ((hways hv).1.2 ht), (hways hv).2 ht]
    · rw [hself, getPa_leafEntry hpa hal hf]
    · rw [hself, leafEntry_flags hf]
      rfl
  · rw [getPte_walk] at ha ⊢
    split_ifs at ha with h
    obtain rfl := Option.some.inj ha
    obtain ⟨h1, h2, h3⟩ := K.old _ hv' h
    obtain ⟨h4, h5⟩ := hways hv'
    rw [if_pos (h4.2 h1), h5 h1, h2]
    refine ⟨rfl, ?_⟩
    rw [← h3, ← h2]
    exact hother hv' h1 hne
  · rw [getPte_walk] at ha hnone
    have hn : ¬ HasTab m r (vpn va') := fun h => by
      rw [if_pos h] at hnone
      cases hnone
    split_ifs at ha with h
    obtain rfl := Option.some.inj ha
    obtain ⟨h4, h5⟩ := hways hv'
    have h1 := h4.1 h
    rw [h5 h1, hother hv' h1 hne]
    exact K.new _ hv' hn h1

/-- **map_page changes one translation**, and a second call leaves the second frame. -/
theorem mapPage_one {va pa flags : ℕ} (T : TreeOn V m r) (hv : vpn va ∈ V) (A : AllocOutside V m r (vpn va))
    (hpa : pa < 2 ^ 56) (hal : pa % 4096 = 0) (hf : flags < 2 ^ 10) :
    MapsOne V m (mapPage va pa r flags m) r va pa flags ∧
      ∀ pa' < 2 ^ 56, pa' % 4096 = 0 →
        MapsOne V m (mapPage va pa' r flags (mapPage va pa r flags m)) r va pa' flags := by
  obtain ⟨m2, h2, T2, K2, ht, h1⟩ := ensureTables T hv A
  rw [mapPage_eq va r m hpa hf h2 h1]
  refine ⟨mapsOne_leaf T2 hv ht K2 hpa hal hf, fun pa' hpa' hal' => ?_⟩
  -- the second call finds the tables
  obtain ⟨-, -, h3, h4⟩ := setLeaf_ways (e := leafEntry pa flags) T2 hv ht hv
  have hslot := slot0_congr (h4 ht.1)
  generalize hm' : writePte (slot0 m2 r (vpn va)) (leafEntry pa flags) m2 = m' at h3 hslot
  have ht' := h3.2 ht
  have hmid : ensureTable (slot2 r (vpn va)) m' = m' := ensureTable_of_present ht'.1
  have htab : m' = ensureTable (slot1 (ensureTable (slot2 r (vpn va)) m') r (vpn va))
      (ensureTable (slot2 r (vpn va)) m') := by
    rw [hmid]
    exact (ensureTable_of_present ht'.2).symm
  rw [mapPage_eq va r m' hpa' hf htab (by rw [hmid]), hslot, ← hm', writePte_writePte]
  exact mapsOne_leaf T2 hv ht K2 hpa' hal' hf

end tree

/-- An empty root table. -/
def emptyRoot : Memory := clearPage (pa2kva pgdirPa) freshMemory

theorem emptyRoot_hasMid {v : ℕ} (hv : v < 2 ^ 27) : ¬ HasMid emptyRoot (pa2kva pgdirPa) v := by
  intro h
  unfold HasMid slot2 emptyRoot at h
  rw [readPte_clearPage (by omega)] at h
  exact not_present_zero h

theorem emptyRoot_tree : TreeOn (Set.Iio (2 ^ 27)) emptyRoot (pa2kva pgdirPa) :=
  { bound := fun _ hv => hv
    root := by decide
    mid := fun _ hv h => absurd h (emptyRoot_hasMid hv)
    mid_inj := fun _ hv _ _ h => absurd h (emptyRoot_hasMid hv)
    tab := fun _ hv h => absurd h.1 (emptyRoot_hasMid hv)
    tab_mid := fun _ hv _ _ h => absurd h.1 (emptyRoot_hasMid hv)
    tab_inj := fun _ hv _ _ h => absurd h.1 (emptyRoot_hasMid hv) }

theorem emptyRoot_alloc : AllocOutside (Set.Iio (2 ^ 27)) emptyRoot (pa2kva pgdirPa) 16 := by
  have hpage : IsPage (allocPage 1 emptyRoot).1 := by
    unfold IsPage
    decide +kernel
  have hout : ¬ TablePage (Set.Iio (2 ^ 27)) emptyRoot (pa2kva pgdirPa) (allocPage 1 emptyRoot).1 := by
    rintro (h | ⟨v, hv, ⟨h, -⟩ | ⟨h, -⟩⟩)
    · exact absurd h (by decide +kernel)
    · exact emptyRoot_hasMid hv h
    · exact emptyRoot_hasMid hv h.1
  refine ⟨fun _ => ⟨hpage, hout⟩, fun _ => ⟨?_, ?_⟩⟩
  · unfold IsPage
    decide +kernel
  · have H : Hung emptyRoot (ensureTable (slot2 (pa2kva pgdirPa) 16) emptyRoot) (allocPage 1 emptyRoot).1
        (slot2 (pa2kva pgdirPa) 16) :=
      ensureTable_hung emptyRoot_tree.root (by norm_num) (emptyRoot_hasMid (by norm_num)) hpage (by decide +kernel)
    rintro (h | ⟨v, hv, ⟨h, he⟩ | ⟨h, -⟩⟩)
    · exact absurd h (by decide +kernel)
    · rw [(hungMid_new emptyRoot_tree hout H hv h (emptyRoot_hasMid hv)).2.1] at he
      exact absurd he (by decide +kernel)
    · exact (hungMid_new emptyRoot_tree hout H hv h.1 (emptyRoot_hasMid hv)).2.2 h

/-- For an empty root table. -/
theorem mapPage_one_empty :
    MapsOne (Set.Iio (2 ^ 27)) emptyRoot (mapPage 0x10000 0x52100000 (pa2kva pgdirPa) 0x1e emptyRoot)
      (pa2kva pgdirPa) 0x10000 0x52100000 0x1e ∧
    ∀ pa' < 2 ^ 56, pa' % 4096 = 0 →
      MapsOne (Set.Iio (2 ^ 27)) emptyRoot
        (mapPage 0x10000 pa' (pa2kva pgdirPa) 0x1e (mapPage 0x10000 0x52100000 (pa2kva pgdirPa) 0x1e emptyRoot))
        (pa2kva pgdirPa) 0x10000 pa' 0x1e :=
  mapPage_one emptyRoot_tree (show 16 < 2 ^ 27 by norm_num) emptyRoot_alloc (by norm_num) (by norm_num) (by norm_num)

end RiscvKernel.Mm
