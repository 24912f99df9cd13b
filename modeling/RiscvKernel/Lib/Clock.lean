import RiscvKernel.Lib.Slots

/-!
# A hand that goes round a dial

The dial has `N` positions and a mark at each of them. `sweep` moves a hand on as long as it meets marks
that are set, and clears them. Whatever the marks are, it stops within one round (`sweep_stops`): at the
first clear mark, or where it started when all are set.
-/

namespace RiscvKernel.Lib

variable {N h k fuel : ℕ} {r : ℕ → Bool}

/-- The marks and the position of the hand when it stops. -/
def sweep (N : ℕ) : ℕ → (ℕ → Bool) → ℕ → Option ((ℕ → Bool) × ℕ)
  | 0, _, _ => none
  | fuel + 1, r, h => if r h then sweep N fuel (Function.update r h false) ((h + 1) % N) else some (r, h)

/-- The hand passes over position `i` on its first `k` moves from `h`. -/
def Passed (N h k i : ℕ) : Prop := ∃ j < k, i = (h + j) % N

instance (N h k i : ℕ) : Decidable (Passed N h k i) := inferInstanceAs (Decidable (∃ j < k, _))

/-- The marks after `k` moves. -/
def cleared (N h k : ℕ) (r : ℕ → Bool) (i : ℕ) : Bool := r i && !decide (Passed N h k i)

/-- The hand stops after `k` moves. -/
structure Stops (N h : ℕ) (r : ℕ → Bool) (k : ℕ) : Prop where
  le : k ≤ N
  set : ∀ j < k, r ((h + j) % N) = true
  clear : k < N → r ((h + k) % N) = false

theorem exists_stops (N h : ℕ) (r : ℕ → Bool) : ∃ k, Stops N h r k := by
  by_cases hall : ∃ k, k < N ∧ r ((h + k) % N) = false
  · have hfind := Nat.find_spec hall
    refine ⟨Nat.find hall, hfind.1.le, fun j hj => ?_, fun _ => hfind.2⟩
    have hbefore := Nat.find_min hall hj
    by_contra hr
    exact hbefore ⟨by omega, by simpa using hr⟩
  · refine ⟨N, le_rfl, fun j hj => ?_, fun h => absurd h (lt_irrefl _)⟩
    by_contra hr
    exact hall ⟨j, hj, by simpa using hr⟩

@[simp] theorem cleared_zero (N h : ℕ) (r : ℕ → Bool) : cleared N h 0 r = r := by
  funext i
  simp [cleared, Passed]

/-- One more move clears one more mark. -/
theorem cleared_succ (N h k : ℕ) (r : ℕ → Bool) :
    Function.update (cleared N h k r) ((h + k) % N) false = cleared N h (k + 1) r := by
  funext i
  by_cases hi : i = (h + k) % N
  · have hp : Passed N h (k + 1) i := ⟨k, by omega, hi⟩
    rw [← hi, Function.update_self]
    simp [cleared, hp]
  · have hiff : Passed N h (k + 1) i ↔ Passed N h k i := by
      constructor
      · rintro ⟨j, hj, rfl⟩
        have hne : j ≠ k := by
          rintro rfl
          exact hi rfl
        exact ⟨j, by omega, rfl⟩
      · rintro ⟨j, hj, rfl⟩
        exact ⟨j, by omega, rfl⟩
    rw [Function.update_of_ne hi]
    simp only [cleared, hiff]

/-- The marks that are met in the first round have not been cleared before. -/
theorem cleared_next (hk : k < N) (r : ℕ → Bool) : cleared N h k r ((h + k) % N) = r ((h + k) % N) := by
  have hp : ¬ Passed N h k ((h + k) % N) := by
    rintro ⟨j, hj, e⟩
    exact slot_ne (n := N) (le_refl h |>.trans (Nat.le_add_right h j)) (by omega) (by omega) e.symm
  simp [cleared, hp]

/-- The first moves. -/
theorem sweep_pass (hk : k ≤ N) (hset : ∀ j < k, r ((h + j) % N) = true) :
    sweep N (fuel + k) r (h % N) = sweep N fuel (cleared N h k r) ((h + k) % N) := by
  induction k generalizing fuel with
  | zero => rw [Nat.add_zero, Nat.add_zero, cleared_zero]
  | succ k ih =>
    have hmark : cleared N h k r ((h + k) % N) = true := (cleared_next hk r).trans (hset k (by omega))
    calc sweep N (fuel + (k + 1)) r (h % N)
        = sweep N (fuel + 1 + k) r (h % N) := by rw [Nat.add_right_comm, Nat.add_assoc]
      _ = sweep N (fuel + 1) (cleared N h k r) ((h + k) % N) := ih (by omega) fun j hj => hset j (by omega)
      _ = sweep N fuel (cleared N h (k + 1) r) ((h + (k + 1)) % N) := by
        rw [sweep, if_pos hmark, cleared_succ, succ_slot, Nat.add_assoc]

/-- **The hand stops** within one round. -/
theorem sweep_stops (hN : 0 < N) (hs : Stops N h r k) :
    sweep N (N + 1) r (h % N) = some (cleared N h k r, (h + k) % N) := by
  have hle := hs.le
  have hstop : cleared N h k r ((h + k) % N) = false := by
    rcases hle.lt_or_eq with hlt | rfl
    · rw [cleared_next hlt]
      exact hs.clear hlt
    · -- after a whole round the hand is back at a mark that it has cleared
      have hp : Passed k h k ((h + k) % k) := ⟨0, hN, by rw [Nat.add_mod_right, Nat.add_zero]⟩
      rw [cleared, decide_eq_true hp, Bool.not_true, Bool.and_false]
  obtain ⟨fuel, hfuel⟩ := Nat.exists_eq_add_of_le hle
  rw [show N + 1 = fuel + 1 + k by omega, sweep_pass hle hs.set, sweep, hstop, if_neg Bool.false_ne_true]

end RiscvKernel.Lib
