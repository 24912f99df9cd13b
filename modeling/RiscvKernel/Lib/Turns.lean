import RiscvKernel.Lib.Run

/-!
# Waiting in a queue

Something waits, with so many others ahead of it. If every step serves it or lets no one in ahead of it, and the
steps that are its turns serve it or one of those ahead of it, then it is served before there have been more turns
than others ahead (`served_of_turns`). `split_cases` is about taking an element out of a queue in which the
element that waits has a certain place.
-/

namespace RiscvKernel.Lib.Turns

open Run

/-- Two ways to cut a list at an element: the same element, one that is behind it or one that is ahead of it. -/
theorem split_cases {T : Type*} {xs ys us vs : List T} {t u : T} (h : xs ++ t :: ys = us ++ u :: vs) :
    (u = t ∧ us = xs) ∨ (∃ bs, us = xs ++ t :: bs ∧ ys = bs ++ u :: vs) ∨
      ∃ bs, xs = us ++ u :: bs ∧ vs = bs ++ t :: ys := by
  rcases List.append_eq_append_iff.1 h with ⟨as, rfl, hc⟩ | ⟨as, rfl, hc⟩
  · cases as with
    | nil =>
      obtain ⟨rfl, rfl⟩ := List.cons.inj hc
      exact Or.inl ⟨rfl, List.append_nil xs⟩
    | cons a as =>
      obtain ⟨rfl, rfl⟩ := List.cons.inj hc
      exact Or.inr (Or.inl ⟨as, rfl, rfl⟩)
  · cases as with
    | nil =>
      obtain ⟨rfl, rfl⟩ := List.cons.inj hc
      exact Or.inl ⟨rfl, (List.append_nil us).symm⟩
    | cons a as =>
      obtain ⟨rfl, rfl⟩ := List.cons.inj hc
      exact Or.inr (Or.inr ⟨as, rfl, rfl⟩)

variable {S A : Type*} {step : S → A → S}

/-- How many of the actions are turns. -/
def turns (step : S → A → S) (Turn : S → A → Prop) [∀ s a, Decidable (Turn s a)] : S → List A → ℕ
  | _, [] => 0
  | s, a :: as => (if Turn s a then 1 else 0) + turns step Turn (step s a) as

/-- **It is served after at most as many turns as there are others ahead of it.** -/
theorem served_of_turns {Ok Turn : S → A → Prop} [∀ s a, Decidable (Turn s a)] {Waits : S → ℕ → Prop} {Served : S → Prop}
    (hstep : ∀ s a n, Waits s n → Ok s a →
      Served (step s a) ∨ ∃ m, Waits (step s a) m ∧ m + (if Turn s a then 1 else 0) ≤ n)
    {s : S} {n : ℕ} {as : List A} (h0 : Waits s n) (hv : Valid step Ok s as) (hn : n < turns step Turn s as) :
    ∃ k ≤ as.length, Served (run step s (as.take k)) := by
  induction as generalizing s n with
  | nil => exact absurd hn (Nat.not_lt_zero n)
  | cons a as ih =>
    obtain ⟨hok, hv⟩ := hv
    rcases hstep s a n h0 hok with hs | ⟨m, h1, hm⟩
    · exact ⟨1, Nat.succ_le_succ (Nat.zero_le _), hs⟩
    · have hn : n < (if Turn s a then 1 else 0) + turns step Turn (step s a) as := hn
      obtain ⟨k, hk, hs⟩ := ih h1 hv (by omega)
      exact ⟨k + 1, Nat.succ_le_succ hk, hs⟩

end RiscvKernel.Lib.Turns
