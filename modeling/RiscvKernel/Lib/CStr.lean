import RiscvKernel.Lib.Mem

/-!
# C strings

A C string is the list of its bytes before the terminating NUL. In a memory it stands at an
address (`cstr`, cut off after `n` bytes). The functions are those of the usual string library:
`strcpy` stores a string with its terminator, `strcmp` compares the string at an address with
another one, `strchr` and `strrchr` give the position of the first and of the last occurrence of
a character.
-/

namespace RiscvKernel.Lib

/-- A C string: its bytes without the terminator. -/
abbrev CStr := List Byte

/-- The string at `a`, cut off after `n` bytes. -/
def cstr (m : Mem) (a : ℕ) : ℕ → CStr
  | 0 => []
  | n + 1 => if m a = 0#8 then [] else m a :: cstr m (a + 1) n

/-- Store a string and its terminator at `a`. -/
def strcpy (m : Mem) (a : ℕ) (s : CStr) : Mem := fun i =>
  if a ≤ i ∧ i ≤ a + s.length then s.getD (i - a) 0#8 else m i

/-- Compare the string at `a` with `s`. -/
def strcmp (m : Mem) (a : ℕ) : CStr → ℤ
  | [] => (m a).toNat
  | c :: cs =>
    if m a = 0#8 then -c.toNat
    else if m a ≠ c then (m a).toNat - c.toNat
    else strcmp m (a + 1) cs

/-- The position of the first `c`. -/
def strchr (c : Byte) : CStr → Option ℕ
  | [] => none
  | x :: xs => if x = c then some 0 else (strchr c xs).map (· + 1)

/-- The position of the last `c`; `last` is the one seen so far, `i` the current position. -/
def strrchrFrom (c : Byte) : CStr → ℕ → Option ℕ → Option ℕ
  | [], _, last => last
  | x :: xs, i, last => strrchrFrom c xs (i + 1) (if x = c then some i else last)

/-- The position of the last `c`. -/
def strrchr (c : Byte) (s : CStr) : Option ℕ := strrchrFrom c s 0 none

/-! ## Strings in memory -/

theorem cstr_congr {m m' : Mem} {a a' n : ℕ} (h : ∀ i < n, m (a + i) = m' (a' + i)) :
    cstr m a n = cstr m' a' n := by
  induction n generalizing a a' with
  | zero => rfl
  | succ n ih =>
    have h0 := h 0 (by omega)
    rw [Nat.add_zero, Nat.add_zero] at h0
    rw [cstr, cstr, h0, ih (fun i hi => by
      have := h (i + 1) (by omega)
      rwa [show a + (i + 1) = a + 1 + i by omega, show a' + (i + 1) = a' + 1 + i by omega] at this)]

theorem zero_notMem_cstr (m : Mem) (a n : ℕ) : 0#8 ∉ cstr m a n := by
  induction n generalizing a with
  | zero => simp [cstr]
  | succ n ih =>
    rw [cstr]
    split_ifs with h
    · simp
    · simp only [List.mem_cons, not_or]
      exact ⟨fun e => h e.symm, ih _⟩

/-- A stored string, with its terminator inside the first `n` bytes, is what `cstr` reads. -/
theorem cstr_eq_of_bytes {m : Mem} {a n : ℕ} {s : CStr} (h0 : 0#8 ∉ s) (hn : s.length < n)
    (h : ∀ i ≤ s.length, m (a + i) = s.getD i 0#8) : cstr m a n = s := by
  induction s generalizing a n with
  | nil =>
    obtain ⟨n, rfl⟩ := Nat.exists_eq_succ_of_ne_zero (by simp at hn; omega : n ≠ 0)
    have := h 0 le_rfl
    rw [Nat.add_zero] at this
    rw [cstr, if_pos (by rw [this]; rfl)]
  | cons c cs ih =>
    obtain ⟨n, rfl⟩ := Nat.exists_eq_succ_of_ne_zero (by simp at hn; omega : n ≠ 0)
    have hc := h 0 (Nat.zero_le _)
    rw [Nat.add_zero, List.getD_cons_zero] at hc
    simp only [List.mem_cons, not_or] at h0
    rw [cstr, hc, if_neg (fun e => h0.1 e.symm), ih h0.2 (by simp at hn; omega) (fun i hi => by
      have := h (i + 1) (by simp; omega)
      rwa [show a + (i + 1) = a + 1 + i by omega, List.getD_cons_succ] at this)]

/-- A string that ends before the cut does not depend on it. -/
theorem cstr_of_le {m : Mem} {a n k : ℕ} (h : (cstr m a n).length < n) (hk : n ≤ k) :
    cstr m a k = cstr m a n := by
  induction n generalizing a k with
  | zero => simp at h
  | succ n ih =>
    obtain ⟨k, rfl⟩ := Nat.exists_eq_succ_of_ne_zero (by omega : k ≠ 0)
    rw [cstr] at h
    rw [cstr, cstr]
    split_ifs at h ⊢ with h0
    · rfl
    · rw [ih (by simpa using h) (by omega)]

theorem strcpy_in {m : Mem} {a i : ℕ} {s : CStr} (h : i ≤ s.length) :
    strcpy m a s (a + i) = s.getD i 0#8 := by
  unfold strcpy
  rw [if_pos ⟨by omega, by omega⟩, Nat.add_sub_cancel_left]

theorem strcpy_out {m : Mem} {a i : ℕ} {s : CStr} (h : i < a ∨ a + s.length < i) :
    strcpy m a s i = m i := by
  unfold strcpy; rw [if_neg (by omega)]

theorem cstr_strcpy {m : Mem} {a n : ℕ} {s : CStr} (h0 : 0#8 ∉ s) (hn : s.length < n) :
    cstr (strcpy m a s) a n = s :=
  cstr_eq_of_bytes h0 hn fun _ hi => strcpy_in hi

/-- Against a string without NUL, `strcmp` gives zero exactly when the two strings are equal;
`n` is any bound beyond the length of the string compared with. -/
theorem strcmp_eq_zero {m : Mem} {a n : ℕ} {s : CStr} (h0 : 0#8 ∉ s) (hn : s.length < n) :
    strcmp m a s = 0 ↔ cstr m a n = s := by
  induction s generalizing a n with
  | nil =>
    obtain ⟨n, rfl⟩ := Nat.exists_eq_succ_of_ne_zero (by simp at hn; omega : n ≠ 0)
    rw [strcmp, cstr]
    by_cases h : m a = 0#8
    · simp [h]
    · simp only [h, if_false, reduceCtorEq, iff_false]
      intro e
      exact h (BitVec.eq_of_toNat_eq (by simpa using e))
  | cons c cs ih =>
    obtain ⟨n, rfl⟩ := Nat.exists_eq_succ_of_ne_zero (by simp at hn; omega : n ≠ 0)
    simp only [List.mem_cons, not_or] at h0
    rw [strcmp, cstr]
    by_cases h : m a = 0#8
    · simp only [h, if_true, reduceCtorEq, iff_false]
      intro e
      exact h0.1 (BitVec.eq_of_toNat_eq (by simp; omega))
    · rw [if_neg h, if_neg h]
      by_cases hc : m a = c
      · rw [if_neg (by simpa using hc), ih h0.2 (n := n) (by simp at hn; omega), hc]
        simp
      · rw [if_pos hc]
        have hne : (m a).toNat ≠ c.toNat := fun e => hc (BitVec.eq_of_toNat_eq e)
        simp only [List.cons.injEq, hc, false_and, iff_false]
        omega

/-- A string that ends within `n` bytes against any string. -/
theorem strcmp_eq_zero_of_short {m : Mem} {a n : ℕ} {s : CStr} (h0 : 0#8 ∉ s)
    (h : (cstr m a n).length < n) : strcmp m a s = 0 ↔ cstr m a n = s := by
  rw [strcmp_eq_zero h0 (show s.length < max n (s.length + 1) by omega),
    cstr_of_le h (Nat.le_max_left _ _)]

/-! ## Positions of a character -/

theorem strchr_none {c : Byte} {s : CStr} (h : strchr c s = none) : c ∉ s := by
  induction s with
  | nil => simp
  | cons x xs ih =>
    rw [strchr] at h
    split_ifs at h with hx
    rw [Option.map_eq_none_iff] at h
    simp only [List.mem_cons, not_or]
    exact ⟨fun e => hx e.symm, ih h⟩

theorem strchr_some {c : Byte} {s : CStr} {k : ℕ} (h : strchr c s = some k) :
    s = s.take k ++ c :: s.drop (k + 1) ∧ c ∉ s.take k := by
  induction s generalizing k with
  | nil => simp [strchr] at h
  | cons x xs ih =>
    rw [strchr] at h
    split_ifs at h with hx
    · cases h; simp [hx]
    · obtain ⟨j, hj, rfl⟩ := Option.map_eq_some_iff.mp h
      obtain ⟨h1, h2⟩ := ih hj
      simp only [List.take_succ_cons, List.drop_succ_cons, List.cons_append, List.mem_cons, not_or]
      exact ⟨by rw [← h1], fun e => hx e.symm, h2⟩

theorem strchr_append {c : Byte} {a b : CStr} (h : c ∉ a) : strchr c (a ++ c :: b) = some a.length := by
  induction a with
  | nil => simp [strchr]
  | cons x xs ih =>
    simp only [List.mem_cons, not_or] at h
    rw [List.cons_append, strchr, if_neg (fun e => h.1 e.symm), ih h.2]
    rfl

theorem strchr_eq_none {c : Byte} {s : CStr} (h : c ∉ s) : strchr c s = none := by
  cases e : strchr c s with
  | none => rfl
  | some k =>
    obtain ⟨h1, -⟩ := strchr_some e
    exact absurd (by rw [h1]; simp) h

theorem strrchrFrom_append (c : Byte) (a b : CStr) (i : ℕ) (last : Option ℕ) :
    strrchrFrom c (a ++ b) i last = strrchrFrom c b (i + a.length) (strrchrFrom c a i last) := by
  induction a generalizing i last with
  | nil => simp [strrchrFrom]
  | cons x xs ih =>
    rw [List.cons_append, strrchrFrom, ih, strrchrFrom, List.length_cons,
      show i + 1 + xs.length = i + (xs.length + 1) by omega]

theorem strrchrFrom_notMem {c : Byte} {s : CStr} (h : c ∉ s) (i : ℕ) (last : Option ℕ) :
    strrchrFrom c s i last = last := by
  induction s generalizing i last with
  | nil => rfl
  | cons x xs ih =>
    simp only [List.mem_cons, not_or] at h
    rw [strrchrFrom, ih h.2, if_neg (fun e => h.1 e.symm)]

theorem strrchr_append {c : Byte} {a b : CStr} (h : c ∉ b) :
    strrchr c (a ++ c :: b) = some a.length := by
  unfold strrchr
  rw [strrchrFrom_append, strrchrFrom, strrchrFrom_notMem h, if_pos rfl, Nat.zero_add]

theorem strrchr_eq_none {c : Byte} {s : CStr} (h : c ∉ s) : strrchr c s = none :=
  strrchrFrom_notMem h 0 none

/-- A string without `c`, or cut at its first `c`. -/
theorem eq_or_first_split (c : Byte) (s : CStr) : c ∉ s ∨ ∃ a b, s = a ++ c :: b ∧ c ∉ a := by
  cases e : strchr c s with
  | none => exact Or.inl (strchr_none e)
  | some k => exact Or.inr ⟨_, _, (strchr_some e).1, (strchr_some e).2⟩

/-- A string without `c`, or cut at its last `c`. -/
theorem eq_or_last_split (c : Byte) (s : CStr) : c ∉ s ∨ ∃ a b, s = a ++ c :: b ∧ c ∉ b := by
  induction s with
  | nil => exact Or.inl (by simp)
  | cons x xs ih =>
    rcases ih with h | ⟨a, b, rfl, hb⟩
    · by_cases hx : x = c
      · exact Or.inr ⟨[], xs, by rw [hx]; rfl, h⟩
      · refine Or.inl ?_
        simp only [List.mem_cons, not_or]
        exact ⟨fun e => hx e.symm, h⟩
    · exact Or.inr ⟨x :: a, b, rfl, hb⟩

end RiscvKernel.Lib
