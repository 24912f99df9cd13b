import Mathlib.Tactic

/-!
# Runs of a deterministic system

A system is a step function on states and actions; `Ok` says when an action may be taken. `Valid s as`
means that all the actions `as` may be taken one after the other from `s`, and `run` gives the state
they lead to.
-/

namespace RiscvKernel.Lib.Run

variable {S A : Type*} (step : S → A → S)

/-- The state after the actions. -/
def run : S → List A → S
  | s, [] => s
  | s, a :: as => run (step s a) as

/-- Every action of the list may be taken when its turn comes. -/
def Valid (Ok : S → A → Prop) : S → List A → Prop
  | _, [] => True
  | s, a :: as => Ok s a ∧ Valid Ok (step s a) as

/-- Validity can be decided by running. -/
def decidableValid (Ok : S → A → Prop) [∀ s a, Decidable (Ok s a)] :
    ∀ s as, Decidable (Valid step Ok s as)
  | _, [] => isTrue trivial
  | s, a :: as =>
    have := decidableValid Ok (step s a) as
    inferInstanceAs (Decidable (Ok s a ∧ Valid step Ok (step s a) as))

instance (Ok : S → A → Prop) [∀ s a, Decidable (Ok s a)] (s : S) (as : List A) :
    Decidable (Valid step Ok s as) := decidableValid step Ok s as

variable {step} {Ok : S → A → Prop} {s : S} {as bs : List A}

theorem run_append : run step s (as ++ bs) = run step (run step s as) bs := by
  induction as generalizing s with
  | nil => rfl
  | cons a as ih => exact ih

theorem valid_append : Valid step Ok s (as ++ bs) ↔
    Valid step Ok s as ∧ Valid step Ok (run step s as) bs := by
  induction as generalizing s with
  | nil =>
    show _ ↔ True ∧ _
    rw [true_and]
    rfl
  | cons a as ih =>
    show Ok s a ∧ Valid step Ok (step s a) (as ++ bs) ↔ (Ok s a ∧ _) ∧ _
    rw [ih, and_assoc]
    rfl

/-- What all the actions of a list keep, a run of them keeps. -/
theorem run_inv {I : S → Prop} (hI : ∀ s, ∀ a ∈ as, I s → I (step s a)) (h0 : I s) :
    I (run step s as) := by
  induction as generalizing s with
  | nil => exact h0
  | cons a as ih =>
    exact ih (fun s b hb => hI s b (List.mem_cons_of_mem _ hb)) (hI s a List.mem_cons_self h0)

/-- An invariant of the steps is an invariant of the runs. -/
theorem Valid.inv {I : S → Prop} (hI : ∀ s a, I s → Ok s a → I (step s a)) (h0 : I s)
    (h : Valid step Ok s as) : I (run step s as) := by
  induction as generalizing s with
  | nil => exact h0
  | cons a as ih => exact ih (hI s a h0 h.1) h.2

/-- Weaker conditions. -/
theorem Valid.mono {I : S → Prop} {Ok' : S → A → Prop} (hI : ∀ s a, I s → Ok s a → I (step s a))
    (hOk : ∀ s a, I s → Ok s a → Ok' s a) (h0 : I s) (h : Valid step Ok s as) :
    Valid step Ok' s as := by
  induction as generalizing s with
  | nil => trivial
  | cons a as ih => exact ⟨hOk s a h0 h.1, ih (hI s a h0 h.1) h.2⟩

/-- The invariant holds in every state of the run. -/
theorem Valid.inv_take {I : S → Prop} (hI : ∀ s a, I s → Ok s a → I (step s a)) (h0 : I s)
    (h : Valid step Ok s as) (k : ℕ) : I (run step s (as.take k)) := by
  rw [← List.take_append_drop k as, valid_append] at h
  exact h.1.inv hI h0

/-- Where the condition is just what a step needs to keep the invariant, a run is valid if and only
if the invariant holds in all its states. -/
theorem valid_iff_inv_take {I : S → Prop} (hI : ∀ s, ∀ a ∈ as, I s → (I (step s a) ↔ Ok s a))
    (h0 : I s) : Valid step Ok s as ↔ ∀ k, I (run step s (as.take k)) := by
  induction as generalizing s with
  | nil =>
    refine iff_of_true trivial fun k => ?_
    rw [List.take_nil]
    exact h0
  | cons a as ih =>
    have ha := hI s a List.mem_cons_self h0
    have ih := fun h1 => ih (fun s b hb => hI s b (List.mem_cons_of_mem _ hb)) (s := step s a) h1
    constructor
    · rintro ⟨h1, h2⟩ k
      cases k with
      | zero => exact h0
      | succ k => exact (ih (ha.mpr h1)).mp h2 k
    · intro h
      have h1 : I (step s a) := h 1
      exact ⟨ha.mp h1, (ih h1).mpr fun k => h (k + 1)⟩

/-- Conditions that agree wherever the invariant holds. -/
theorem valid_congr {I : S → Prop} {Ok' : S → A → Prop}
    (hI : ∀ s, ∀ a ∈ as, I s → Ok s a → I (step s a))
    (hOk : ∀ s, ∀ a ∈ as, I s → (Ok s a ↔ Ok' s a)) (h0 : I s) :
    Valid step Ok s as ↔ Valid step Ok' s as := by
  induction as generalizing s with
  | nil => rfl
  | cons a as ih =>
    have ha := hOk s a List.mem_cons_self h0
    have ih := fun h1 => ih (fun s b hb => hI s b (List.mem_cons_of_mem _ hb))
      (fun s b hb => hOk s b (List.mem_cons_of_mem _ hb)) (s := step s a) h1
    constructor
    · rintro ⟨h1, h2⟩
      exact ⟨ha.mp h1, (ih (hI s a List.mem_cons_self h0 h1)).mp h2⟩
    · rintro ⟨h1, h2⟩
      have h1 := ha.mpr h1
      exact ⟨h1, (ih (hI s a List.mem_cons_self h0 h1)).mpr h2⟩

end RiscvKernel.Lib.Run
