import Mathlib.Tactic

/-!
# Singly linked lists

`Chain next a ps` says that the nodes of the list that starts at `a` and goes on by `next` up to 0
are `ps`.
-/

namespace RiscvKernel.Lib

def Chain (next : ℕ → ℕ) : ℕ → List ℕ → Prop
  | a, [] => a = 0
  | a, p :: ps => a = p ∧ p ≠ 0 ∧ Chain next (next p) ps

namespace Chain

variable {next next' : ℕ → ℕ} {a p : ℕ} {ps qs : List ℕ}

/-- A chain depends only on the pointers of its nodes. -/
theorem congr (h : Chain next a ps) (hn : ∀ p ∈ ps, next' p = next p) : Chain next' a ps := by
  induction ps generalizing a with
  | nil => exact h
  | cons p ps ih =>
    obtain ⟨h1, h2, h3⟩ := h
    refine ⟨h1, h2, ?_⟩
    rw [hn p (by simp)]
    exact ih h3 fun q hq => hn q (by simp [hq])

/-- A new first node. -/
theorem push (h : Chain next a ps) (hp : p ≠ 0) (h1 : next' p = a) (hn : ∀ q ∈ ps, next' q = next q) :
    Chain next' p (p :: ps) :=
  ⟨rfl, hp, by rw [h1]; exact h.congr hn⟩

theorem nil_of_zero (h : Chain next 0 ps) : ps = [] := by
  cases ps with
  | nil => rfl
  | cons p ps => exact absurd h.1.symm h.2.1

/-- The first node of a chain that is not empty. -/
theorem cons_of_ne (h : Chain next a ps) (ha : a ≠ 0) : ∃ qs, ps = a :: qs ∧ Chain next (next a) qs := by
  cases ps with
  | nil => exact absurd h ha
  | cons p ps =>
    obtain ⟨rfl, -, h3⟩ := h
    exact ⟨ps, rfl, h3⟩

/-- The nodes are determined by the start. -/
theorem unique (h : Chain next a ps) (h' : Chain next a qs) : ps = qs := by
  induction ps generalizing a qs with
  | nil =>
    obtain rfl : a = 0 := h
    exact h'.nil_of_zero.symm
  | cons p ps ih =>
    obtain ⟨rfl, hne, hps⟩ := h
    obtain ⟨rs, rfl, hrs⟩ := h'.cons_of_ne hne
    rw [ih hps hrs]

end Chain

end RiscvKernel.Lib
