import RiscvKernel.Lib.CStr

/-!
# Words of a string

`StrAt m a s` says that the string `s` stands at `a` in a memory, followed by its terminator. `words`
are the nonempty pieces of a list between separators, in their order; the lemmas take the first word
from the list.
-/

namespace RiscvKernel.Lib

/-! ## Strings at an address -/

/-- The string at `a` is `s`. -/
def StrAt (m : Mem) : ℕ → CStr → Prop
  | a, [] => m a = 0#8
  | a, c :: cs => m a = c ∧ c ≠ 0#8 ∧ StrAt m (a + 1) cs

variable {m m' : Mem} {a n : ℕ} {s t : CStr}

theorem StrAt.cstr (h : StrAt m a s) (hn : s.length < n) : cstr m a n = s := by
  induction s generalizing a n with
  | nil =>
    obtain ⟨n, rfl⟩ := Nat.exists_eq_succ_of_ne_zero (by simp at hn; omega : n ≠ 0)
    have h : m a = 0#8 := h
    rw [Lib.cstr, if_pos h]
  | cons c cs ih =>
    obtain ⟨n, rfl⟩ := Nat.exists_eq_succ_of_ne_zero (by simp at hn; omega : n ≠ 0)
    obtain ⟨h1, h2, h3⟩ := h
    rw [Lib.cstr, h1, if_neg h2, ih h3 (by simpa using hn)]

/-- A string depends on its own bytes only. -/
theorem StrAt.congr (h : StrAt m a s) (hm : ∀ i, a ≤ i → i ≤ a + s.length → m' i = m i) :
    StrAt m' a s := by
  induction s generalizing a with
  | nil => exact (hm a le_rfl (Nat.le_add_right _ _)).trans h
  | cons c cs ih =>
    obtain ⟨h1, h2, h3⟩ := h
    refine ⟨(hm a le_rfl (Nat.le_add_right _ _)).trans h1, h2, ih h3 fun i hi hi' => ?_⟩
    rw [List.length_cons] at hm
    exact hm i (by omega) (by omega)

/-- The end of a string is a string. -/
theorem StrAt.drop (h : StrAt m a (s ++ t)) : StrAt m (a + s.length) t := by
  induction s generalizing a with
  | nil => exact h
  | cons c cs ih =>
    have := ih h.2.2
    rwa [List.length_cons, show a + (cs.length + 1) = a + 1 + cs.length by omega]

/-- A string that is cut off by a terminator. -/
theorem StrAt.cut (h : StrAt m a (s ++ t)) (hm : ∀ i, a ≤ i → i < a + s.length → m' i = m i)
    (h0 : m' (a + s.length) = 0#8) : StrAt m' a s := by
  induction s generalizing a with
  | nil => exact h0
  | cons c cs ih =>
    obtain ⟨h1, h2, h3⟩ := h
    rw [List.length_cons] at hm h0
    refine ⟨(hm a le_rfl (by omega)).trans h1, h2, ih h3 (fun i hi hi' => ?_) ?_⟩
    · exact hm i (by omega) (by omega)
    · rwa [show a + 1 + cs.length = a + (cs.length + 1) by omega]

theorem StrAt.eq_nil (h : StrAt m a s) (h0 : m a = 0#8) : s = [] := by
  cases s with
  | nil => rfl
  | cons c cs => exact absurd (h.1.symm.trans h0) h.2.1

theorem StrAt.zero_notMem (h : StrAt m a s) : 0#8 ∉ s := by
  rw [← h.cstr (Nat.lt_succ_self _)]
  exact zero_notMem_cstr _ _ _

instance decidableStrAt (m : Mem) : ∀ a s, Decidable (StrAt m a s)
  | a, [] => inferInstanceAs (Decidable (m a = 0#8))
  | a, c :: cs =>
    have := decidableStrAt m (a + 1) cs
    inferInstanceAs (Decidable (m a = c ∧ c ≠ 0#8 ∧ StrAt m (a + 1) cs))

/-! ## Words -/

section

variable {α : Type*} {sep : α → Bool} {w l : List α} {x : α}

/-- The nonempty pieces between separators. -/
def words (sep : α → Bool) (l : List α) : List (List α) :=
  (l.splitOnP sep).filter fun w => !w.isEmpty

@[simp] theorem words_nil : words sep [] = [] := rfl

theorem words_cons_sep (hx : sep x = true) : words sep (x :: l) = words sep l := by
  unfold words
  rw [List.splitOnP_cons_eq_if_modifyHead, if_pos hx]
  rfl

theorem words_append_sep (hw : ∀ c ∈ w, sep c = false) (h0 : w ≠ []) (hx : sep x = true) :
    words sep (w ++ x :: l) = w :: words sep l := by
  unfold words
  rw [List.splitOnP_append_cons_of_forall_mem hw x hx]
  exact List.filter_cons_of_pos (by simpa using h0)

theorem words_word (hw : ∀ c ∈ w, sep c = false) (h0 : w ≠ []) : words sep w = [w] := by
  unfold words
  rw [List.splitOnP_eq_singleton hw]
  exact List.filter_cons_of_pos (by simpa using h0)

/-- Separators in front do not count. -/
theorem words_dropWhile : words sep (l.dropWhile sep) = words sep l := by
  induction l with
  | nil => rfl
  | cons c cs ih =>
    cases hc : sep c with
    | true => rw [List.dropWhile_cons_of_pos hc, ih, words_cons_sep hc]
    | false => rw [List.dropWhile_cons_of_neg (by simp [hc])]

theorem dropWhile_eq_cons (h : l.dropWhile sep = x :: w) : sep x = false := by
  have := List.head?_dropWhile_not sep l
  rw [h] at this
  simpa using this

theorem mem_takeWhile_not {c : α} (hc : c ∈ l.takeWhile fun c => !sep c) : sep c = false := by
  simpa using List.all_eq_true.mp List.all_takeWhile c hc

variable (sep) in
/-- What follows the first word: nothing, or a separator. -/
theorem dropWhile_not_cases (l : List α) :
    (l.dropWhile fun c => !sep c) = [] ∨
      ∃ x t, (l.dropWhile fun c => !sep c) = x :: t ∧ sep x = true := by
  induction l with
  | nil => exact Or.inl rfl
  | cons c cs ih =>
    cases hc : sep c with
    | true => exact Or.inr ⟨c, cs, by rw [List.dropWhile_cons_of_neg (by simp [hc])], hc⟩
    | false => rwa [List.dropWhile_cons_of_pos (by simp [hc])]

/-- The first word of a list that starts with one, and the words of the rest. -/
theorem words_cons (hx : sep x = false) :
    words sep (x :: l) =
      ((x :: l).takeWhile fun c => !sep c) :: words sep ((x :: l).dropWhile fun c => !sep c) := by
  have hne : ((x :: l).takeWhile fun c => !sep c) ≠ [] := by
    rw [List.takeWhile_cons_of_pos (by simp [hx])]
    exact List.cons_ne_nil _ _
  have hl := List.takeWhile_append_dropWhile (p := fun c => !sep c) (l := x :: l)
  rcases dropWhile_not_cases sep (x :: l) with h | ⟨y, t, h, hy⟩
  · rw [h, List.append_nil] at hl
    rw [h, words_nil]
    conv_lhs => rw [← hl]
    exact words_word (fun c hc => mem_takeWhile_not hc) hne
  · rw [h] at hl
    rw [h, words_cons_sep hy]
    conv_lhs => rw [← hl]
    exact words_append_sep (fun c hc => mem_takeWhile_not hc) hne hy

end

end RiscvKernel.Lib
