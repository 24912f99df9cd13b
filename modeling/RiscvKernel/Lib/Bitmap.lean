import RiscvKernel.Lib.Mem
import RiscvKernel.Lib.Loop

/-!
# Bitmaps in byte memories

Bit `n` of the bitmap at `a` is bit `n % 8` of byte `a + n / 8`. `setBit` and `clearBit` are the
byte updates `|= 1 << bit` and `&= ~(1 << bit)`; each changes one bit and no other. `clearBitIn`
is the search of one byte for a clear bit.
-/

namespace RiscvKernel.Lib

/-- Bit `n` of the bitmap at `a`. -/
def bit (m : Mem) (a n : ℕ) : Bool := (m (a + n / 8)).getLsbD (n % 8)

/-- Set bit `n` of the bitmap at `a`. -/
def setBit (m : Mem) (a n : ℕ) : Mem :=
  Function.update m (a + n / 8) (m (a + n / 8) ||| 1#8 <<< (n % 8))

/-- Clear bit `n` of the bitmap at `a`. -/
def clearBit (m : Mem) (a n : ℕ) : Mem :=
  Function.update m (a + n / 8) (m (a + n / 8) &&& ~~~(1#8 <<< (n % 8)))

theorem getLsbD_one_shiftLeft {i j : ℕ} (hj : j < 8) :
    (1#8 <<< i).getLsbD j = decide (i = j) := by
  simp only [BitVec.getLsbD_shiftLeft, BitVec.getLsbD_one, hj, decide_true, Bool.true_and]
  by_cases h : i = j
  · subst h; simp
  · by_cases h' : j < i
    · simp [h, h']
    · simp [h, h']; omega

theorem bit_setBit (m : Mem) (a n k : ℕ) : bit (setBit m a n) a k = (decide (k = n) || bit m a k) := by
  have hk := Nat.mod_lt k (show 0 < 8 by norm_num)
  unfold bit setBit
  by_cases h : k / 8 = n / 8
  · rw [h, Function.update_self, BitVec.getLsbD_or, getLsbD_one_shiftLeft hk, Bool.or_comm]
    congr 1
    exact decide_eq_decide.mpr (by omega)
  · rw [Function.update_of_ne (by omega), decide_eq_false (by rintro rfl; exact h rfl),
      Bool.false_or]

theorem bit_clearBit (m : Mem) (a n k : ℕ) :
    bit (clearBit m a n) a k = (!decide (k = n) && bit m a k) := by
  have hk := Nat.mod_lt k (show 0 < 8 by norm_num)
  unfold bit clearBit
  by_cases h : k / 8 = n / 8
  · rw [h, Function.update_self, BitVec.getLsbD_and, BitVec.getLsbD_not, getLsbD_one_shiftLeft hk,
      Bool.and_comm]
    congr 1
    simp only [hk, decide_true, Bool.true_and]
    congr 1
    exact decide_eq_decide.mpr (by omega)
  · rw [Function.update_of_ne (by omega), decide_eq_false (by rintro rfl; exact h rfl),
      Bool.not_false, Bool.true_and]

theorem setBit_out {m : Mem} {a n i : ℕ} (h : i ≠ a + n / 8) : setBit m a n i = m i :=
  Function.update_of_ne h _ _

theorem clearBit_out {m : Mem} {a n i : ℕ} (h : i ≠ a + n / 8) : clearBit m a n i = m i :=
  Function.update_of_ne h _ _

theorem bit_congr {m m' : Mem} {a n : ℕ} (h : m (a + n / 8) = m' (a + n / 8)) :
    bit m a n = bit m' a n := by
  unfold bit; rw [h]

/-! ## Searching a byte for a clear bit -/

/-- The first clear bit of a byte, looked for only when the byte is not `0xff`. -/
def clearBitIn (b : Byte) : Option ℕ :=
  if b = 0xff#8 then none
  else scan (fun i => if b &&& 1#8 <<< i = 0#8 then some i else none) 0 8

theorem and_shift_eq_zero {b : Byte} {i : ℕ} (hi : i < 8) :
    b &&& 1#8 <<< i = 0#8 ↔ b.getLsbD i = false := by
  constructor
  · intro h
    have := congrArg (fun v => v.getLsbD i) h
    simp only [BitVec.getLsbD_and, getLsbD_one_shiftLeft hi, decide_true, Bool.and_true,
      BitVec.getLsbD_zero] at this
    exact this
  · intro h
    apply BitVec.eq_of_getLsbD_eq
    intro j hj
    rw [BitVec.getLsbD_and, getLsbD_one_shiftLeft hj, BitVec.getLsbD_zero]
    by_cases e : i = j
    · subst e; rw [h, Bool.false_and]
    · rw [decide_eq_false e, Bool.and_false]

theorem clearBitIn_some {b : Byte} {i : ℕ} (h : clearBitIn b = some i) :
    i < 8 ∧ b.getLsbD i = false ∧ ∀ j < i, b.getLsbD j = true := by
  unfold clearBitIn at h
  split at h
  · cases h
  · obtain ⟨j, -, h2, h3, h4⟩ := scan_eq_some.mp h
    split at h3
    · rename_i hz
      cases h3
      refine ⟨by omega, (and_shift_eq_zero (by omega)).mp hz, fun k hk => ?_⟩
      have hn := h4 k (by omega) hk
      split at hn
      · cases hn
      · rename_i hz'
        rw [and_shift_eq_zero (by omega)] at hz'
        exact eq_true_of_ne_false hz'
    · cases h3

theorem clearBitIn_none {b : Byte} (h : clearBitIn b = none) {i : ℕ} (hi : i < 8) :
    b.getLsbD i = true := by
  unfold clearBitIn at h
  split at h
  · rename_i e
    subst e
    interval_cases i <;> decide
  · have := scan_eq_none.mp h i (by omega) (by omega)
    split at this
    · cases this
    · rename_i hz
      rw [and_shift_eq_zero hi] at hz
      exact eq_true_of_ne_false hz

end RiscvKernel.Lib
