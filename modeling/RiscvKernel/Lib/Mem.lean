import Mathlib.Tactic

/-!
# Byte memories

A memory is a function from addresses to bytes. The operations are the ones byte-level C code
is made of: copying a range (`blit`), filling a range (`fill`), and little-endian numbers of `w`
bytes (`le` reads one, `putLe` writes one).

Every writer comes with two kinds of facts: what a read inside the written range gives, and that a
read outside of it is unchanged.
-/

namespace RiscvKernel.Lib

/-- A byte. -/
abbrev Byte := BitVec 8

/-- A byte-addressed memory. -/
abbrev Mem := ℕ → Byte

/-! ## Copying and filling -/

/-- `m` with the `n` bytes at `a` replaced by the `n` bytes of `src` at `b`. -/
def blit (m : Mem) (a : ℕ) (src : Mem) (b n : ℕ) : Mem := fun i =>
  if a ≤ i ∧ i < a + n then src (b + (i - a)) else m i

/-- `m` with the `n` bytes at `a` replaced by `v`. -/
def fill (m : Mem) (a : ℕ) (v : Byte) (n : ℕ) : Mem := fun i =>
  if a ≤ i ∧ i < a + n then v else m i

theorem blit_in {m src : Mem} {a b n i : ℕ} (h : i < n) : blit m a src b n (a + i) = src (b + i) := by
  unfold blit
  rw [if_pos ⟨by omega, by omega⟩, Nat.add_sub_cancel_left]

theorem blit_in_of_le {m src : Mem} {a b n i : ℕ} (h1 : a ≤ i) (h2 : i < a + n) :
    blit m a src b n i = src (b + (i - a)) := by
  unfold blit; rw [if_pos ⟨h1, h2⟩]

theorem blit_out {m src : Mem} {a b n i : ℕ} (h : i < a ∨ a + n ≤ i) :
    blit m a src b n i = m i := by
  unfold blit; rw [if_neg (by omega)]

theorem fill_in {m : Mem} {a n i : ℕ} {v : Byte} (h1 : a ≤ i) (h2 : i < a + n) :
    fill m a v n i = v := by
  unfold fill; rw [if_pos ⟨h1, h2⟩]

theorem fill_out {m : Mem} {a n i : ℕ} {v : Byte} (h : i < a ∨ a + n ≤ i) :
    fill m a v n i = m i := by
  unfold fill; rw [if_neg (by omega)]

/-- Reading a range into a buffer, changing a part of it there and writing the range back
changes that part only. -/
theorem blit_blit_blit (d buf src : Mem) {a n o k : ℕ} (h : o + k ≤ n) :
    blit d a (blit (blit buf 0 d a n) o src 0 k) 0 n = blit d (a + o) src 0 k := by
  funext i
  by_cases hi : a ≤ i ∧ i < a + n
  · rw [blit_in_of_le hi.1 hi.2]
    by_cases ho : a + o ≤ i ∧ i < a + o + k
    · rw [blit_in_of_le (by omega) (by omega), blit_in_of_le ho.1 ho.2]
      congr 1; omega
    · rw [blit_out (by omega), blit_in_of_le (by omega) (by omega), blit_out (by omega)]
      congr 1; omega
  · rw [blit_out (by omega), blit_out (by omega)]

/-- Reading a range, changing one byte of the copy and writing the range back changes that
byte only. -/
theorem blit_update_blit (d buf : Mem) {a n j : ℕ} (v : Byte) (h : j < n) :
    blit d a (Function.update (blit buf 0 d a n) j v) 0 n = Function.update d (a + j) v := by
  funext i
  by_cases hi : a ≤ i ∧ i < a + n
  · rw [blit_in_of_le hi.1 hi.2]
    by_cases hj : i = a + j
    · subst hj
      rw [Function.update_self, show 0 + (a + j - a) = j by omega, Function.update_self]
    · rw [Function.update_of_ne (by omega), Function.update_of_ne hj,
        blit_in_of_le (by omega) (by omega)]
      congr 1; omega
  · rw [blit_out (by omega), Function.update_of_ne (by omega)]

/-! ## Little-endian numbers -/

/-- The little-endian number of the `w` bytes at `a`. -/
def le (m : Mem) (a : ℕ) : ℕ → ℕ
  | 0 => 0
  | w + 1 => (m a).toNat + 256 * le m (a + 1) w

/-- Byte `i` of the little-endian form of `v`. -/
def leByte (v i : ℕ) : Byte := BitVec.ofNat 8 (v / 256 ^ i)

/-- `m` with the `w` bytes at `a` replaced by the little-endian form of `v`. -/
def putLe (m : Mem) (a w v : ℕ) : Mem := fun i =>
  if a ≤ i ∧ i < a + w then leByte v (i - a) else m i

theorem le_lt (m : Mem) (a w : ℕ) : le m a w < 256 ^ w := by
  induction w generalizing a with
  | zero => simp [le]
  | succ w ih =>
    have h1 := ih (a + 1)
    have h2 : (m a).toNat < 256 := (m a).isLt
    rw [le, pow_succ]
    omega

theorem le_congr {m m' : Mem} {a a' w : ℕ} (h : ∀ i < w, m (a + i) = m' (a' + i)) :
    le m a w = le m' a' w := by
  induction w generalizing a a' with
  | zero => rfl
  | succ w ih =>
    have h0 := h 0 (by omega)
    rw [Nat.add_zero, Nat.add_zero] at h0
    rw [le, le, h0, ih (fun i hi => by
      have := h (i + 1) (by omega)
      rwa [show a + (i + 1) = a + 1 + i by omega, show a' + (i + 1) = a' + 1 + i by omega] at this)]

theorem leByte_succ (v i : ℕ) : leByte v (i + 1) = leByte (v / 256) i := by
  unfold leByte
  rw [pow_succ, Nat.mul_comm, ← Nat.div_div_eq_div_mul]

/-- A range that holds the bytes of `v` reads as `v` modulo the width. -/
theorem le_of_bytes {m : Mem} {a w v : ℕ} (h : ∀ i < w, m (a + i) = leByte v i) :
    le m a w = v % 256 ^ w := by
  induction w generalizing a v with
  | zero => simp [le, Nat.mod_one]
  | succ w ih =>
    have h0 := h 0 (by omega)
    rw [Nat.add_zero] at h0
    have hr := ih (a := a + 1) (v := v / 256) (fun i hi => by
      have := h (i + 1) (by omega)
      rwa [show a + (i + 1) = a + 1 + i by omega, leByte_succ] at this)
    rw [le, h0, hr, pow_succ, Nat.mul_comm (256 ^ w), Nat.mod_mul]
    simp [leByte]

theorem putLe_in {m : Mem} {a w v i : ℕ} (h : i < w) : putLe m a w v (a + i) = leByte v i := by
  unfold putLe
  rw [if_pos ⟨by omega, by omega⟩, Nat.add_sub_cancel_left]

theorem putLe_out {m : Mem} {a w v i : ℕ} (h : i < a ∨ a + w ≤ i) : putLe m a w v i = m i := by
  unfold putLe; rw [if_neg (by omega)]

theorem le_putLe_self (m : Mem) (a w v : ℕ) : le (putLe m a w v) a w = v % 256 ^ w :=
  le_of_bytes fun _ hi => putLe_in hi

theorem le_putLe_of_disjoint {m : Mem} {a w v a' w' : ℕ} (h : a' + w' ≤ a ∨ a + w ≤ a') :
    le (putLe m a w v) a' w' = le m a' w' :=
  le_congr fun _ hi => putLe_out (by omega)

theorem leByte_le {m : Mem} {a w i : ℕ} (hi : i < w) : leByte (le m a w) i = m (a + i) := by
  induction w generalizing a i with
  | zero => omega
  | succ w ih =>
    have h0 : (m a).toNat < 256 := (m a).isLt
    cases i with
    | zero =>
      unfold leByte
      rw [pow_zero, Nat.div_one, le]
      apply BitVec.eq_of_toNat_eq
      rw [BitVec.toNat_ofNat, show a + 0 = a from rfl]
      omega
    | succ i =>
      rw [leByte_succ, le, show ((m a).toNat + 256 * le m (a + 1) w) / 256 = le m (a + 1) w by omega,
        ih (by omega), show a + 1 + i = a + (i + 1) by omega]

/-- A 32-bit word. -/
def word (m : Mem) (a : ℕ) : ℕ := le m a 4

/-- Store a 32-bit word. -/
def putWord (m : Mem) (a v : ℕ) : Mem := putLe m a 4 v

theorem word_lt (m : Mem) (a : ℕ) : word m a < 2 ^ 32 := by
  have := le_lt m a 4
  unfold word; omega

theorem word_congr {m m' : Mem} {a a' : ℕ} (h : ∀ i < 4, m (a + i) = m' (a' + i)) :
    word m a = word m' a' := le_congr h

theorem word_putWord_self (m : Mem) (a v : ℕ) : word (putWord m a v) a = v % 2 ^ 32 :=
  le_putLe_self m a 4 v

theorem word_putWord_of_disjoint {m : Mem} {a v a' : ℕ} (h : a' + 4 ≤ a ∨ a + 4 ≤ a') :
    word (putWord m a v) a' = word m a' := le_putLe_of_disjoint h

/-- The bytes of a sequence of 32-bit words. -/
def ofWords (w : ℕ → ℕ) : Mem := fun i => leByte (w (i / 4)) (i % 4)

theorem word_ofWords (w : ℕ → ℕ) (k : ℕ) : word (ofWords w) (4 * k) = w k % 2 ^ 32 :=
  le_of_bytes (a := 4 * k) (w := 4) fun i hi => by
    show leByte (w ((4 * k + i) / 4)) ((4 * k + i) % 4) = leByte (w k) i
    rw [show (4 * k + i) / 4 = k by omega, show (4 * k + i) % 4 = i by omega]

end RiscvKernel.Lib
