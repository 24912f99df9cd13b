import Mathlib.Tactic

/-!
# Forests of block pointers

A store of blocks holds pointers in two kinds of cells: root cells, named by a type `R`, and the
words of index blocks. The cell reached from root `r` by the word positions `ks` (last step first)
holds `ref c r ks`; a null pointer on the way gives null. The shape `S` says which paths there are.

* `ref_congr`, `ref_setRoot`, `ref_setWord`: what a change of the cells does to all the paths.
* `Owned`: the allocation map `used` marks null and the blocks that occur in the forest, and every
  block occurs there once. It is kept by filling one empty cell with a fresh block
  (`Owned.assign`), by new roots (`Owned.congr_shape`) and by dropping roots (`Owned.drop`).
-/

namespace RiscvKernel.Lib.Forest

variable {R : Type*}

/-- The pointer cells of a block store. -/
structure Cells (R : Type*) where
  /-- The root cells. -/
  root : R → ℕ
  /-- Word `k` of index block `b`. -/
  word : ℕ → ℕ → ℕ

/-- The pointer in the cell reached from `r` by `ks`. -/
def ref (c : Cells R) (r : R) : List ℕ → ℕ
  | [] => c.root r
  | k :: ks => if ref c r ks = 0 then 0 else c.word (ref c r ks) k

/-- A shape contains the initial segments of its paths. -/
def Closed (S : R → List ℕ → Prop) : Prop := ∀ r k ks, S r (k :: ks) → S r ks

theorem ref_cons_of_ne {c : Cells R} {r : R} {k : ℕ} {ks : List ℕ} (h : ref c r ks ≠ 0) :
    ref c r (k :: ks) = c.word (ref c r ks) k := by
  rw [ref, if_neg h]

theorem ref_cons_of_eq {c : Cells R} {r : R} {k : ℕ} {ks : List ℕ} (h : ref c r ks = 0) :
    ref c r (k :: ks) = 0 := by
  rw [ref, if_pos h]

theorem ref_of_root {c : Cells R} {r : R} (h : c.root r = 0) (ks : List ℕ) : ref c r ks = 0 := by
  induction ks with
  | nil => exact h
  | cons k ks ih => exact ref_cons_of_eq ih

/-! ## Changing cells -/

section Change

variable {S : R → List ℕ → Prop} {c c' : Cells R}

/-- Paths whose root cell and index words are unchanged keep their pointers. -/
theorem ref_congr (hS : Closed S) {r : R} (hr : S r [] → c'.root r = c.root r)
    (hw : ∀ k ks, S r (k :: ks) → ref c r ks ≠ 0 → c'.word (ref c r ks) k = c.word (ref c r ks) k) :
    ∀ ks, S r ks → ref c' r ks = ref c r ks := by
  intro ks
  induction ks with
  | nil => intro h; exact hr h
  | cons k ks ih =>
    intro h
    have e := ih (hS _ _ _ h)
    by_cases h0 : ref c r ks = 0
    · rw [ref_cons_of_eq h0, ref_cons_of_eq (e.trans h0)]
    · rw [ref_cons_of_ne h0, ref_cons_of_ne (by rwa [e]), e, hw k ks h h0]

/-- Filling the empty root cell `r0` with `b`, whose words are null as far as `r0` has paths,
changes the path of that cell only. -/
theorem ref_setRoot [DecidableEq R] (hS : Closed S) {r0 : R} {b : ℕ} (hb : b ≠ 0)
    (h0 : c.root r0 = 0) (hr : ∀ r, S r [] → c'.root r = if r = r0 then b else c.root r)
    (hw : ∀ r k ks, S r (k :: ks) → ref c r ks ≠ 0 →
      c'.word (ref c r ks) k = c.word (ref c r ks) k)
    (hz : ∀ k, S r0 [k] → c'.word b k = 0) :
    ∀ r ks, S r ks → ref c' r ks = if r = r0 ∧ ks = [] then b else ref c r ks := by
  intro r ks
  induction ks with
  | nil =>
    intro h
    simp only [ref, hr r h, and_true]
  | cons k ks ih =>
    intro h
    have e := ih (hS _ _ _ h)
    rw [if_neg (by simp)]
    by_cases hp : r = r0 ∧ ks = []
    · obtain ⟨rfl, rfl⟩ := hp
      rw [if_pos ⟨rfl, rfl⟩] at e
      rw [ref_cons_of_ne (by rwa [e]), e, hz k h, ref_cons_of_eq (show ref c r [] = 0 from h0)]
    · rw [if_neg hp] at e
      by_cases hz' : ref c r ks = 0
      · rw [ref_cons_of_eq hz', ref_cons_of_eq (e.trans hz')]
      · rw [ref_cons_of_ne hz', ref_cons_of_ne (by rwa [e]), e, hw r k ks h hz']

/-- Filling the empty word `k0` of the index block reached by `ks0` with `b` changes the path of
that cell only. -/
theorem ref_setWord [DecidableEq R] (hS : Closed S) {r0 : R} {k0 : ℕ} {ks0 : List ℕ} {b : ℕ}
    (hb : b ≠ 0) (hB : ref c r0 ks0 ≠ 0) (h0 : c.word (ref c r0 ks0) k0 = 0)
    (hr : ∀ r, S r [] → c'.root r = c.root r) (hset : c'.word (ref c r0 ks0) k0 = b)
    (hw : ∀ r k ks, S r (k :: ks) → ref c r ks ≠ 0 → ¬ (r = r0 ∧ ks = ks0 ∧ k = k0) →
      c'.word (ref c r ks) k = c.word (ref c r ks) k)
    (hz : ∀ k, S r0 (k :: k0 :: ks0) → c'.word b k = 0) :
    ∀ r ks, S r ks → ref c' r ks = if r = r0 ∧ ks = k0 :: ks0 then b else ref c r ks := by
  intro r ks
  induction ks with
  | nil =>
    intro h
    simp only [ref, hr r h, reduceCtorEq, and_false, if_false]
  | cons k ks ih =>
    intro h
    have e := ih (hS _ _ _ h)
    by_cases hp : r = r0 ∧ ks = k0 :: ks0
    · -- below the new block: its words are null, and before there was no block here
      obtain ⟨rfl, rfl⟩ := hp
      rw [if_pos ⟨rfl, rfl⟩] at e
      rw [ref_cons_of_ne (by rwa [e]), e, hz k h, if_neg (by
        rintro ⟨-, e'⟩
        have := congrArg List.length e'
        simp at this)]
      rw [ref_cons_of_eq]
      rw [ref_cons_of_ne hB, h0]
    · rw [if_neg hp] at e
      by_cases hz' : ref c r ks = 0
      · rw [ref_cons_of_eq (e.trans hz'), if_neg, ref_cons_of_eq hz']
        rintro ⟨rfl, e'⟩
        cases e'
        exact hB hz'
      · rw [ref_cons_of_ne (by rwa [e]), e]
        by_cases hq : r = r0 ∧ ks = ks0 ∧ k = k0
        · obtain ⟨rfl, rfl, rfl⟩ := hq
          rw [hset, if_pos ⟨rfl, rfl⟩]
        · rw [hw r k ks h hz' hq, if_neg, ref_cons_of_ne hz']
          rintro ⟨rfl, e'⟩
          cases e'
          exact hq ⟨rfl, rfl, rfl⟩

end Change

/-! ## Ownership -/

/-- `used` marks null and the blocks of the forest, and no block occurs twice. -/
structure Owned (c : Cells R) (S : R → List ℕ → Prop) (used : ℕ → Prop) : Prop where
  used_iff : ∀ b, used b ↔ b = 0 ∨ ∃ r ks, S r ks ∧ ref c r ks = b
  inj : ∀ {r ks r' ks'}, S r ks → S r' ks' → ref c r ks = ref c r' ks' → ref c r ks ≠ 0 →
    r = r' ∧ ks = ks'

section Owned

variable {S S' : R → List ℕ → Prop} {c c' : Cells R} {used used' : ℕ → Prop}

theorem Owned.used_ref (h : Owned c S used) {r : R} {ks : List ℕ} (hp : S r ks) :
    used (ref c r ks) := (h.used_iff _).mpr (Or.inr ⟨r, ks, hp, rfl⟩)

/-- A block the map does not mark occurs nowhere. -/
theorem Owned.ref_ne (h : Owned c S used) {b : ℕ} (hb : ¬ used b) {r : R} {ks : List ℕ}
    (hp : S r ks) : ref c r ks ≠ b := by
  rintro rfl
  exact hb (h.used_ref hp)

/-- Filling the empty cell of path `(r0, ks0)` with the fresh block `b`. -/
theorem Owned.assign [DecidableEq R] (h : Owned c S used) {r0 : R} {ks0 : List ℕ} {b : ℕ}
    (hp : S r0 ks0) (hb0 : b ≠ 0) (hb : ¬ used b) (h0 : ref c r0 ks0 = 0)
    (hu : ∀ x, used' x ↔ x = b ∨ used x)
    (hr : ∀ r ks, S r ks → ref c' r ks = if r = r0 ∧ ks = ks0 then b else ref c r ks) :
    Owned c' S used' where
  used_iff := by
    intro x
    rw [hu, h.used_iff]
    constructor
    · rintro (rfl | rfl | ⟨r, ks, hs, rfl⟩)
      · exact Or.inr ⟨r0, ks0, hp, by rw [hr _ _ hp, if_pos ⟨rfl, rfl⟩]⟩
      · exact Or.inl rfl
      · by_cases e : r = r0 ∧ ks = ks0
        · obtain ⟨rfl, rfl⟩ := e
          exact Or.inl h0
        · exact Or.inr ⟨r, ks, hs, by rw [hr _ _ hs, if_neg e]⟩
    · rintro (rfl | ⟨r, ks, hs, rfl⟩)
      · exact Or.inr (Or.inl rfl)
      · rw [hr _ _ hs]
        split_ifs with e
        · exact Or.inl rfl
        · exact Or.inr (Or.inr ⟨r, ks, hs, rfl⟩)
  inj := by
    intro r ks r' ks' hs hs' e hne
    rw [hr _ _ hs, hr _ _ hs'] at e
    rw [hr _ _ hs] at hne
    by_cases h1 : r = r0 ∧ ks = ks0 <;> by_cases h2 : r' = r0 ∧ ks' = ks0
    · exact ⟨h1.1.trans h2.1.symm, h1.2.trans h2.2.symm⟩
    · rw [if_pos h1, if_neg h2] at e
      exact absurd e.symm (h.ref_ne hb hs')
    · rw [if_neg h1, if_pos h2] at e
      exact absurd e (h.ref_ne hb hs)
    · rw [if_neg h1, if_neg h2] at e
      rw [if_neg h1] at hne
      exact h.inj hs hs' e hne

/-- A change of the shape and of the cells that keeps the pointers of the old paths and adds
only paths to null. -/
theorem Owned.congr_shape (h : Owned c S used) (hu : ∀ x, used' x ↔ used x)
    (hS : ∀ r ks, S r ks → S' r ks) (hr : ∀ r ks, S r ks → ref c' r ks = ref c r ks)
    (hn : ∀ r ks, S' r ks → S r ks ∨ ref c' r ks = 0) : Owned c' S' used' where
  used_iff := by
    intro x
    rw [hu, h.used_iff]
    constructor
    · rintro (rfl | ⟨r, ks, hs, rfl⟩)
      · exact Or.inl rfl
      · exact Or.inr ⟨r, ks, hS _ _ hs, hr _ _ hs⟩
    · rintro (rfl | ⟨r, ks, hs, rfl⟩)
      · exact Or.inl rfl
      · rcases hn _ _ hs with h1 | h1
        · exact Or.inr ⟨r, ks, h1, (hr _ _ h1).symm⟩
        · exact Or.inl h1
  inj := by
    intro r ks r' ks' hs hs' e hne
    rcases hn _ _ hs with h1 | h1
    · rcases hn _ _ hs' with h2 | h2
      · rw [hr _ _ h1, hr _ _ h2] at e
        rw [hr _ _ h1] at hne
        exact h.inj h1 h2 e hne
      · exact absurd (e.trans h2) hne
    · exact absurd h1 hne

/-- Dropping paths and unmarking exactly their blocks. -/
theorem Owned.drop (h : Owned c S used) (hS : ∀ r ks, S' r ks → S r ks)
    (hr : ∀ r ks, S' r ks → ref c' r ks = ref c r ks)
    (hu : ∀ x, used' x ↔
      used x ∧ ¬ (x ≠ 0 ∧ ∃ r ks, S r ks ∧ ¬ S' r ks ∧ ref c r ks = x)) :
    Owned c' S' used' where
  used_iff := by
    intro x
    rw [hu, h.used_iff]
    constructor
    · rintro ⟨rfl | ⟨r, ks, hs, rfl⟩, hn⟩
      · exact Or.inl rfl
      · by_cases h0 : ref c r ks = 0
        · exact Or.inl h0
        · by_cases hs' : S' r ks
          · exact Or.inr ⟨r, ks, hs', hr _ _ hs'⟩
          · exact absurd ⟨h0, r, ks, hs, hs', rfl⟩ hn
    · rintro (rfl | ⟨r, ks, hs, rfl⟩)
      · exact ⟨Or.inl rfl, fun hn => hn.1 rfl⟩
      · refine ⟨Or.inr ⟨r, ks, hS _ _ hs, (hr _ _ hs).symm⟩, ?_⟩
        rintro ⟨hne, r', ks', h1, h2, h3⟩
        rw [hr _ _ hs] at hne h3
        obtain ⟨rfl, rfl⟩ := h.inj h1 (hS _ _ hs) h3 (by rwa [h3])
        exact h2 hs
  inj := by
    intro r ks r' ks' hs hs' e hne
    rw [hr _ _ hs, hr _ _ hs'] at e
    rw [hr _ _ hs] at hne
    exact h.inj (hS _ _ hs) (hS _ _ hs') e hne

end Owned

end RiscvKernel.Lib.Forest
