import Mathlib.Tactic

/-!
# Counted loops

The shapes a C `for` loop takes: `loop` runs its body for every index, `loopM` does the same with a
body that may fail to return, `scan` returns at the first index at which the body yields a result.
All count upwards from `i` and are structurally recursive in the number of rounds.
-/

namespace RiscvKernel.Lib

variable {σ α : Type*}

/-- `for (; n rounds; i++) s = f i s`. -/
def loop (f : ℕ → σ → σ) : ℕ → ℕ → σ → σ
  | _, 0, s => s
  | i, n + 1, s => loop f (i + 1) n (f i s)

/-- `for (; n rounds; i++) s = f i s` with a body that may not return. -/
def loopM (f : ℕ → σ → Option σ) : ℕ → ℕ → σ → Option σ
  | _, 0, s => some s
  | i, n + 1, s => (f i s).bind (loopM f (i + 1) n)

/-- `for (; n rounds; i++) if (f i yields a) return a`. -/
def scan (f : ℕ → Option α) : ℕ → ℕ → Option α
  | _, 0 => none
  | i, n + 1 =>
    match f i with
    | some a => some a
    | none => scan f (i + 1) n

/-- The invariant rule of `loop`. -/
theorem loop_inv {f : ℕ → σ → σ} {P : ℕ → σ → Prop} {n i : ℕ} {s : σ}
    (hs : ∀ j s, i ≤ j → j < i + n → P j s → P (j + 1) (f j s)) (h : P i s) :
    P (i + n) (loop f i n s) := by
  induction n generalizing i s with
  | zero => exact h
  | succ n ih =>
    have h1 := hs i s le_rfl (by omega) h
    have h2 := ih (i := i + 1) (fun j s h1 h2 => hs j s (by omega) (by omega)) h1
    rwa [show i + 1 + n = i + (n + 1) by omega] at h2

/-- The invariant rule of `loopM`: what every round that returns keeps. -/
theorem loopM_inv {f : ℕ → σ → Option σ} {P : ℕ → σ → Prop} {n i : ℕ} {s s' : σ}
    (hs : ∀ j s s', i ≤ j → j < i + n → P j s → f j s = some s' → P (j + 1) s') (h : P i s)
    (hr : loopM f i n s = some s') : P (i + n) s' := by
  induction n generalizing i s with
  | zero =>
    obtain rfl := Option.some.inj hr
    exact h
  | succ n ih =>
    rw [loopM, Option.bind_eq_some_iff] at hr
    obtain ⟨s1, h1, h2⟩ := hr
    have h3 := ih (i := i + 1) (fun j s s' h1 h2 => hs j s s' (by omega) (by omega))
      (hs i s s1 le_rfl (by omega) h h1) h2
    rwa [show i + 1 + n = i + (n + 1) by omega] at h3

/-- If every round returns and goes on from `P j` to `P (j + 1)`, the loop returns and ends at `P (i + n)`. -/
theorem loopM_run {f : ℕ → σ → Option σ} {P : ℕ → σ → Prop} {n i : ℕ} {s : σ}
    (hs : ∀ j s, i ≤ j → j < i + n → P j s → ∃ s', f j s = some s' ∧ P (j + 1) s') (h : P i s) :
    ∃ s', loopM f i n s = some s' ∧ P (i + n) s' := by
  induction n generalizing i s with
  | zero => exact ⟨s, rfl, h⟩
  | succ n ih =>
    obtain ⟨s1, h1, h2⟩ := hs i s le_rfl (by omega) h
    obtain ⟨s2, h3, h4⟩ := ih (i := i + 1) (fun j s h1 h2 => hs j s (by omega) (by omega)) h2
    refine ⟨s2, by rw [loopM, h1]; exact h3, ?_⟩
    rwa [show i + 1 + n = i + (n + 1) by omega] at h4

theorem scan_eq_none {f : ℕ → Option α} {i n : ℕ} :
    scan f i n = none ↔ ∀ j, i ≤ j → j < i + n → f j = none := by
  induction n generalizing i with
  | zero => simp [scan]; omega
  | succ n ih =>
    rw [scan]
    cases h : f i with
    | some a =>
      simp only [reduceCtorEq, false_iff, not_forall]
      exact ⟨i, le_rfl, by omega, by simp [h]⟩
    | none =>
      simp only [ih]
      constructor
      · intro H j h1 h2
        by_cases hj : j = i
        · rw [hj, h]
        · exact H j (by omega) (by omega)
      · intro H j h1 h2
        exact H j (by omega) (by omega)

theorem scan_eq_some {f : ℕ → Option α} {i n : ℕ} {a : α} :
    scan f i n = some a ↔
      ∃ j, i ≤ j ∧ j < i + n ∧ f j = some a ∧ ∀ k, i ≤ k → k < j → f k = none := by
  induction n generalizing i with
  | zero => simp only [scan, reduceCtorEq, false_iff]; omega
  | succ n ih =>
    rw [scan]
    cases h : f i with
    | some b =>
      constructor
      · intro e
        exact ⟨i, le_rfl, by omega, h.trans e, fun k h1 h2 => by omega⟩
      · rintro ⟨j, h1, h2, h3, h4⟩
        by_cases hj : j = i
        · rw [← h3, hj, h]
        · have := h4 i le_rfl (by omega)
          rw [h] at this; cases this
    | none =>
      simp only [ih]
      constructor
      · rintro ⟨j, h1, h2, h3, h4⟩
        refine ⟨j, by omega, by omega, h3, fun k hk1 hk2 => ?_⟩
        by_cases hk : k = i
        · rw [hk, h]
        · exact h4 k (by omega) hk2
      · rintro ⟨j, h1, h2, h3, h4⟩
        have hj : j ≠ i := by rintro rfl; rw [h] at h3; cases h3
        exact ⟨j, by omega, by omega, h3, fun k hk1 hk2 => h4 k (by omega) hk2⟩

theorem scan_congr {f g : ℕ → Option α} {i n : ℕ} (h : ∀ j, i ≤ j → j < i + n → f j = g j) :
    scan f i n = scan g i n := by
  induction n generalizing i with
  | zero => rfl
  | succ n ih =>
    rw [scan, scan, h i le_rfl (by omega), ih fun j h1 h2 => h j (by omega) (by omega)]

end RiscvKernel.Lib
