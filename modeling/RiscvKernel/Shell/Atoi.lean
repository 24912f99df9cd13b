import RiscvKernel.Shell.Tokens

/-!
# Numbers on the command line

`atol` of `tiny_libc/atoi.c` reads a number. The loop that should skip the blanks in front of it never
moves on, so `atol` returns what it should if and only if the string does not start with a blank
(`atol_iff`).
-/

namespace RiscvKernel.Shell

open Lib

/-! ## The function -/

/-- `isdigit`. -/
def isdigit (ch : Byte) : Bool := 48#8 ≤ ch ∧ ch ≤ 57#8

/-- `while (isspace(*str)) ;`; like the other loop it gives `none` when it has not ended after `n`
rounds. -/
def skipBlanks : ℕ → Mem → ℕ → Option ℕ
  | 0, _, _ => none
  | n + 1, m, str => if isspace (m str) then skipBlanks n m str else some str

/-- The loop that converts the digits, with the return behind it. A `long` wraps around. -/
def convert (base : ℕ) (negative : Bool) : ℕ → Mem → ℕ → BitVec 64 → Option (BitVec 64)
  | 0, _, _, _ => none
  | n + 1, m, str, ret =>
    let ch := m str
    if ch ≠ 0#8 then
      if isdigit ch then
        convert base negative n m (str + 1) (ret * .ofNat 64 base + .ofNat 64 (ch.toNat - 48))
      else if base = 16 then
        if 97#8 ≤ ch ∧ ch ≤ 102#8 then
          convert base negative n m (str + 1) (ret * .ofNat 64 base + .ofNat 64 (ch.toNat - 97 + 10))
        else if 65#8 ≤ ch ∧ ch ≤ 70#8 then
          convert base negative n m (str + 1) (ret * .ofNat 64 base + .ofNat 64 (ch.toNat - 65 + 10))
        else some 0
      else some 0
    else some (if negative then -ret else ret)

/-- What `atol` does behind the sign. -/
def convertNumber (n : ℕ) (m : Mem) (str : ℕ) (negative : Bool) : Option (BitVec 64) :=
  if m str = 48#8 ∧ m (str + 1) = 120#8 ∨ m str = 48#8 ∧ m (str + 1) = 88#8 then
    convert 16 negative n m (str + 2) 0
  else convert 10 negative n m str 0

/-- `atol`. -/
def atol (n : ℕ) (m : Mem) (str : ℕ) : Option (BitVec 64) :=
  if str = 0 then some 0
  else do
    let str ← skipBlanks n m str
    if m str = 43#8 then convertNumber n m (str + 1) false
    else if m str = 45#8 then convertNumber n m (str + 1) true
    else if isdigit (m str) then convertNumber n m str false
    else some 0

/-! ## Numerals -/

/-- The value of a digit. -/
def digitValue (ch : Byte) : Option ℕ :=
  if 48 ≤ ch.toNat ∧ ch.toNat ≤ 57 then some (ch.toNat - 48)
  else if 97 ≤ ch.toNat ∧ ch.toNat ≤ 102 then some (ch.toNat - 87)
  else if 65 ≤ ch.toNat ∧ ch.toNat ≤ 70 then some (ch.toNat - 55)
  else none

/-- The value of a digit of the base. -/
def digitIn (base : ℕ) (ch : Byte) : Option ℕ := (digitValue ch).filter (· < base)

/-- The string consists of one or more digits of the base, which denote `v`. -/
def Digits (base : ℕ) (s : CStr) (v : ℕ) : Prop :=
  s ≠ [] ∧ ∃ ds, s.mapM (digitIn base) = some ds ∧ v = Nat.ofDigits base ds.reverse

/-- Decimal digits, or `0x` or `0X` and hexadecimal digits. -/
inductive Magnitude : CStr → ℕ → Prop
  | decimal {s : CStr} {v : ℕ} (h : Digits 10 s v) : Magnitude s v
  | hexadecimal {s : CStr} {v : ℕ} {x : Byte} (hx : x = 120#8 ∨ x = 88#8) (h : Digits 16 s v) :
    Magnitude (48#8 :: x :: s) v

/-- White space, a sign or none, and digits. -/
inductive Numeral : CStr → ℤ → Prop
  | unsigned {s : CStr} {v : ℕ} (h : Magnitude s v) : Numeral s v
  | plus {s : CStr} {v : ℕ} (h : Magnitude s v) : Numeral (43#8 :: s) v
  | minus {s : CStr} {v : ℕ} (h : Magnitude s v) : Numeral (45#8 :: s) (-v)
  | blank {c : Byte} {s : CStr} {z : ℤ} (hc : isspace c) (h : Numeral s z) : Numeral (c :: s) z

/-- `atol` returns `r`. -/
def Returns (m : Mem) (str : ℕ) (r : BitVec 64) : Prop := ∃ k, ∀ n ≥ k, atol n m str = some r

/-- `atol` reads the string `s` at `str` as it should. -/
structure ReadsNumber (m : Mem) (str : ℕ) (s : CStr) : Prop where
  terminates : ∃ r, Returns m str r
  value : ∀ z, Numeral s z → |z| < 2 ^ 63 → ∃ r, Returns m str r ∧ r.toInt = z
  other : (∀ z, ¬ Numeral s z) → Returns m str 0

variable {base n a v : ℕ} {m : Mem} {s : CStr} {c : Byte} {negative : Bool} {ret : BitVec 64}

/-! ## The conversion -/

theorem isdigit_iff : isdigit c ↔ 48 ≤ c.toNat ∧ c.toNat ≤ 57 := by
  rw [isdigit, decide_eq_true_iff]
  rfl

theorem digitIn_digit (hb : 10 ≤ base) (h : isdigit c) : digitIn base c = some (c.toNat - 48) := by
  rw [isdigit_iff] at h
  rw [digitIn, digitValue, if_pos h, Option.filter_some, if_pos]
  simpa using (by omega : c.toNat - 48 < base)

theorem digitIn_lower (h : 97#8 ≤ c ∧ c ≤ 102#8) : digitIn 16 c = some (c.toNat - 97 + 10) := by
  have h : 97 ≤ c.toNat ∧ c.toNat ≤ 102 := h
  rw [digitIn, digitValue, if_neg (by omega), if_pos h, Option.filter_some, if_pos]
  · rw [show c.toNat - 87 = c.toNat - 97 + 10 by omega]
  · simpa using (by omega : c.toNat - 87 < 16)

theorem digitIn_upper (h : 65#8 ≤ c ∧ c ≤ 70#8) : digitIn 16 c = some (c.toNat - 65 + 10) := by
  have h : 65 ≤ c.toNat ∧ c.toNat ≤ 70 := h
  rw [digitIn, digitValue, if_neg (by omega), if_neg (by omega), if_pos h, Option.filter_some, if_pos]
  · rw [show c.toNat - 55 = c.toNat - 65 + 10 by omega]
  · simpa using (by omega : c.toNat - 55 < 16)

/-- There are no other digits. -/
theorem digitIn_none (h : ¬ isdigit c)
    (hx : base = 10 ∨ ¬ (97#8 ≤ c ∧ c ≤ 102#8) ∧ ¬ (65#8 ≤ c ∧ c ≤ 70#8)) : digitIn base c = none := by
  rw [isdigit_iff] at h
  rw [digitIn, digitValue, if_neg h]
  rcases hx with rfl | ⟨h1, h2⟩
  · split_ifs with h1 h2
    · rw [Option.filter_some, if_neg]
      simpa using (by omega : 10 ≤ c.toNat - 87)
    · rw [Option.filter_some, if_neg]
      simpa using (by omega : 10 ≤ c.toNat - 55)
    · rfl
  · have h1 : ¬ (97 ≤ c.toNat ∧ c.toNat ≤ 102) := h1
    have h2 : ¬ (65 ≤ c.toNat ∧ c.toNat ≤ 70) := h2
    rw [if_neg h1, if_neg h2]
    rfl

/-- The number behind `ret` when the digits `ds` have been read. -/
def converted (base : ℕ) (ret : BitVec 64) (ds : List ℕ) : BitVec 64 :=
  ds.foldl (fun ret d => ret * .ofNat 64 base + .ofNat 64 d) ret

/-- What the digits of the string give. -/
def converts (base : ℕ) (negative : Bool) (s : CStr) (ret : BitVec 64) : BitVec 64 :=
  match s.mapM (digitIn base) with
  | some ds => if negative then -converted base ret ds else converted base ret ds
  | none => 0

theorem converts_some {d : ℕ} (h : digitIn base c = some d) :
    converts base negative (c :: s) ret =
      converts base negative s (ret * .ofNat 64 base + .ofNat 64 d) := by
  unfold converts
  rw [List.mapM_cons, h]
  cases s.mapM (digitIn base) <;> rfl

theorem converts_none (h : digitIn base c = none) : converts base negative (c :: s) ret = 0 := by
  unfold converts
  rw [List.mapM_cons, h]
  rfl

/-- The loop converts the digits of the string. -/
theorem convert_eq (hb : base = 10 ∨ base = 16) (h : StrAt m a s) (hn : s.length < n) :
    convert base negative n m a ret = some (converts base negative s ret) := by
  induction s generalizing a n ret with
  | nil =>
    obtain ⟨n, rfl⟩ := Nat.exists_eq_succ_of_ne_zero (by omega : n ≠ 0)
    have h : m a = 0#8 := h
    rw [convert, h]
    rfl
  | cons c s ih =>
    obtain ⟨n, rfl⟩ := Nat.exists_eq_succ_of_ne_zero (by omega : n ≠ 0)
    obtain ⟨h1, h2, h3⟩ := h
    have ih : ∀ ret, convert base negative n m (a + 1) ret = some (converts base negative s ret) :=
      fun _ => ih h3 (Nat.lt_of_succ_lt_succ hn)
    rw [convert]
    simp only [h1, ih]
    rw [if_pos h2]
    split_ifs with hd h16 hl hu
    · rw [converts_some (digitIn_digit (by omega) hd)]
    · subst h16
      rw [converts_some (digitIn_lower hl)]
    · subst h16
      rw [converts_some (digitIn_upper hu)]
    · rw [converts_none (digitIn_none hd (Or.inr ⟨hl, hu⟩))]
    · rw [converts_none (digitIn_none hd (Or.inl (hb.resolve_right h16)))]

/-- Arithmetic of a `long` is that of the numbers modulo `2 ^ 64`. -/
theorem converted_ofNat (base u : ℕ) (ds : List ℕ) :
    converted base (.ofNat 64 u) ds = .ofNat 64 (ds.foldl (fun u d => u * base + d) u) := by
  induction ds generalizing u with
  | nil => rfl
  | cons d ds ih =>
    rw [List.foldl_cons, ← ih, converted, List.foldl_cons, ← BitVec.ofNat_mul, ← BitVec.ofNat_add]
    rfl

theorem foldl_digits (base : ℕ) (ds : List ℕ) :
    ds.foldl (fun u d => u * base + d) 0 = Nat.ofDigits base ds.reverse := by
  rw [Nat.ofDigits_eq_foldr, List.foldr_reverse]
  congr 1
  funext u d
  exact (add_comm _ _).trans (congrArg _ (mul_comm _ _))

theorem toInt_ofNat_of_lt (hv : v < 2 ^ 63) : (BitVec.ofNat 64 v).toInt = v := by
  rw [BitVec.toInt_eq_toNat_of_lt]
  · rw [BitVec.toNat_ofNat, Nat.mod_eq_of_lt (by omega)]
  · rw [BitVec.toNat_ofNat, Nat.mod_eq_of_lt (by omega)]
    omega

theorem toInt_neg_ofNat_of_lt (hv : v < 2 ^ 63) : (-BitVec.ofNat 64 v).toInt = -v := by
  rw [BitVec.toInt_neg, toInt_ofNat_of_lt hv]
  exact Int.bmod_eq_of_le (by omega) (by omega)

/-- The value of the digits, with the sign. -/
theorem converts_digits (h : Digits base s v) (hv : v < 2 ^ 63) :
    (converts base negative s 0).toInt = if negative then -(v : ℤ) else v := by
  obtain ⟨-, ds, h1, rfl⟩ := h
  have h2 : converted base 0 ds = .ofNat 64 (Nat.ofDigits base ds.reverse) := by
    rw [← foldl_digits]
    exact converted_ofNat base 0 ds
  rw [converts, h1]
  simp only [h2]
  split_ifs
  · exact toInt_neg_ofNat_of_lt hv
  · exact toInt_ofNat_of_lt hv

/-- Other strings are read as zero. -/
theorem converts_other (h : ∀ v, ¬ Digits base s v) : converts base negative s 0 = 0 := by
  cases hs : s.mapM (digitIn base) with
  | none => rw [converts, hs]
  | some ds =>
    obtain rfl : s = [] := by
      by_contra hne
      exact h _ ⟨hne, ds, hs, rfl⟩
    cases negative with
    | false => rfl
    | true => exact BitVec.neg_zero 64

/-! ## Behind the sign -/

/-- What `atol` makes of the string behind the sign. -/
def number (negative : Bool) : CStr → BitVec 64
  | c :: x :: s =>
    if c = 48#8 ∧ (x = 120#8 ∨ x = 88#8) then converts 16 negative s 0
    else converts 10 negative (c :: x :: s) 0
  | s => converts 10 negative s 0

theorem convertNumber_eq (h : StrAt m a s) (hn : s.length < n) :
    convertNumber n m a negative = some (number negative s) := by
  match s, h with
  | [], h =>
    have h0 : m a = 0#8 := h
    rw [convertNumber, if_neg (by simp [h0]), convert_eq (Or.inl rfl) h hn]
    rfl
  | [c], h =>
    have h1 : m (a + 1) = 0#8 := h.2.2
    rw [convertNumber, if_neg (by simp [h1]), convert_eq (Or.inl rfl) h hn]
    rfl
  | c :: x :: s, h =>
    have h1 : m a = c := h.1
    have h2 : m (a + 1) = x := h.2.2.1
    rw [convertNumber, number, h1, h2]
    by_cases hx : c = 48#8 ∧ (x = 120#8 ∨ x = 88#8)
    · rw [if_pos (and_or_left.mp hx), if_pos hx]
      rw [List.length_cons, List.length_cons] at hn
      exact convert_eq (Or.inr rfl) h.2.2.2.2 (by omega)
    · rw [if_neg (fun h => hx (and_or_left.mpr h)), if_neg hx]
      exact convert_eq (Or.inl rfl) h hn

theorem Digits.digit (h : Digits base s v) (hc : c ∈ s) : ∃ d, digitIn base c = some d := by
  obtain ⟨-, ds, hs, -⟩ := h
  induction s generalizing ds with
  | nil => cases hc
  | cons c' s ih =>
    rw [List.mapM_cons] at hs
    obtain ⟨d, hd, h1⟩ := Option.bind_eq_some_iff.mp hs
    obtain ⟨ds', hds', -⟩ := Option.bind_eq_some_iff.mp h1
    rcases List.mem_cons.mp hc with rfl | hc
    · exact ⟨d, hd⟩
    · exact ih hc ds' hds'

theorem Digits.isdigit (h : Digits 10 s v) (hc : c ∈ s) : isdigit c := by
  obtain ⟨d, hd⟩ := h.digit hc
  by_contra hn
  rw [digitIn_none hn (Or.inl rfl)] at hd
  cases hd

/-- A number starts with a digit. -/
theorem Magnitude.isdigit (h : Magnitude (c :: s) v) : isdigit c := by
  cases h with
  | decimal h => exact h.isdigit List.mem_cons_self
  | hexadecimal hx h => rfl

/-- A number is read as its value. -/
theorem number_value (h : Magnitude s v) (hv : v < 2 ^ 63) :
    (number negative s).toInt = if negative then -(v : ℤ) else v := by
  cases h with
  | decimal h =>
    have hn : number negative s = converts 10 negative s 0 := by
      match s, h with
      | [], h => rfl
      | [c], h => rfl
      | c :: x :: s, h =>
        have hx : Shell.isdigit x := h.isdigit (List.mem_cons_of_mem _ List.mem_cons_self)
        refine if_neg ?_
        rintro ⟨-, rfl | rfl⟩ <;> cases hx
    rw [hn]
    exact converts_digits h hv
  | hexadecimal hx h =>
    rw [number, if_pos ⟨rfl, hx⟩]
    exact converts_digits h hv

/-- Anything else is read as zero. -/
theorem number_other (h : ∀ v, ¬ Magnitude s v) : number negative s = 0 := by
  match s, h with
  | [], h => exact converts_other fun v hd => h v (.decimal hd)
  | [c], h => exact converts_other fun v hd => h v (.decimal hd)
  | c :: x :: s, h =>
    rw [number]
    split_ifs with hx
    · obtain ⟨rfl, hx⟩ := hx
      exact converts_other fun v hd => h v (.hexadecimal hx hd)
    · exact converts_other fun v hd => h v (.decimal hd)

/-! ## The whole string -/

/-- What `atol` makes of a string that does not start with a blank. -/
def signedNumber : CStr → BitVec 64
  | [] => 0
  | c :: s =>
    if c = 43#8 then number false s
    else if c = 45#8 then number true s
    else if isdigit c then number false (c :: s)
    else 0

theorem atol_eq (ha : a ≠ 0) (h : StrAt m a s) (hc : ∀ c ∈ s.head?, isspace c = false)
    (hn : s.length < n) : atol n m a = some (signedNumber s) := by
  obtain ⟨n, rfl⟩ := Nat.exists_eq_succ_of_ne_zero (by omega : n ≠ 0)
  have hb : isspace (m a) = false := by
    cases s with
    | nil =>
      rw [show m a = 0#8 from h]
      rfl
    | cons c s =>
      rw [h.1]
      exact hc c rfl
  have hs : skipBlanks (n + 1) m a = some a := by
    rw [skipBlanks, hb]
    rfl
  rw [atol, if_neg ha, hs]
  simp only [Option.bind_eq_bind, Option.bind_some]
  cases s with
  | nil =>
    rw [show m a = 0#8 from h]
    rfl
  | cons c s =>
    rw [List.length_cons] at hn
    rw [h.1, signedNumber]
    split_ifs with hp hm hd
    · exact convertNumber_eq h.2.2 (by omega)
    · exact convertNumber_eq h.2.2 (by omega)
    · exact convertNumber_eq h hn
    · rfl

/-- On a blank `atol` stays where it is. -/
theorem atol_blank (ha : a ≠ 0) (hc : isspace (m a)) (n : ℕ) : atol n m a = none := by
  have hs : skipBlanks n m a = none := by
    induction n with
    | zero => rfl
    | succ n ih =>
      rw [skipBlanks, if_pos hc]
      exact ih
  rw [atol, if_neg ha, hs]
  rfl

theorem signedNumber_value {z : ℤ} (hc : ∀ c ∈ s.head?, isspace c = false) (h : Numeral s z)
    (hz : |z| < 2 ^ 63) : (signedNumber s).toInt = z := by
  cases h with
  | @unsigned s v h =>
    rw [Nat.abs_cast] at hz
    have hv : v < 2 ^ 63 := by exact_mod_cast hz
    cases s with
    | nil =>
      cases h with
      | decimal h => exact absurd rfl h.1
    | cons c s =>
      have hd := h.isdigit
      rw [signedNumber, if_neg (by rintro rfl; cases hd), if_neg (by rintro rfl; cases hd), if_pos hd]
      exact number_value h hv
  | @plus s v h =>
    rw [Nat.abs_cast] at hz
    have hv : v < 2 ^ 63 := by exact_mod_cast hz
    exact number_value h hv
  | @minus s v h =>
    rw [abs_neg, Nat.abs_cast] at hz
    have hv : v < 2 ^ 63 := by exact_mod_cast hz
    exact number_value h hv
  | @blank c s z hb h =>
    rw [hc c rfl] at hb
    cases hb

theorem signedNumber_other (h : ∀ z, ¬ Numeral s z) : signedNumber s = 0 := by
  cases s with
  | nil => rfl
  | cons c s =>
    rw [signedNumber]
    split_ifs with hp hm hd
    · subst hp
      exact number_other fun v hv => h v (.plus hv)
    · subst hm
      exact number_other fun v hv => h (-v) (.minus hv)
    · exact number_other fun v hv => h v (.unsigned hv)
    · rfl

/-- `atol` terminates and reads numbers if and only if there is no white space in front. -/
theorem atol_iff (ha : a ≠ 0) (h : StrAt m a s) :
    ReadsNumber m a s ↔ ∀ c ∈ s.head?, isspace c = false := by
  constructor
  · intro H c hc
    obtain ⟨r, k, hk⟩ := H.terminates
    by_contra hb
    rw [Bool.not_eq_false] at hb
    cases s with
    | nil => cases hc
    | cons c' s =>
      cases hc
      have hn := hk k le_rfl
      rw [atol_blank ha (by rw [h.1]; exact hb)] at hn
      cases hn
  · intro hc
    have hr : Returns m a (signedNumber s) :=
      ⟨s.length + 1, fun n hn => atol_eq ha h hc (by omega)⟩
    refine ⟨⟨_, hr⟩, fun z hz hlt => ⟨_, hr, signedNumber_value hc hz hlt⟩, fun hno => ?_⟩
    rw [← signedNumber_other hno]
    exact hr

/-- The string `" 5"` at 16. -/
def blankFive : Mem := fun i => if i = 16 then 32#8 else if i = 17 then 53#8 else 0#8

theorem strAt_blankFive : StrAt blankFive 16 [32#8, 53#8] :=
  ⟨rfl, by decide, rfl, by decide, rfl⟩

/-- The number without the blank is read. -/
theorem atol_five : ReadsNumber blankFive 17 [53#8] := by
  refine (atol_iff (by decide) strAt_blankFive.2.2).mpr ?_
  rintro c ⟨⟩
  rfl

/-- The number behind a blank is not: `atol` never returns. -/
theorem atol_blankFive : ¬ ReadsNumber blankFive 16 [32#8, 53#8] := by
  intro H
  obtain ⟨r, k, hk⟩ := H.terminates
  have hn := hk k le_rfl
  rw [atol_blank (by decide) rfl] at hn
  cases hn

end RiscvKernel.Shell
