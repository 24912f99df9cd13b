import Mathlib.Tactic

/-!
# Forward simulation

A system has a step function, which may fail to return, and a condition under which a step may be taken.
`Simulates` says that such a step returns, keeps an invariant and is matched by a step of a more abstract
system, which need not be a function. Then a run keeps the invariant (`Simulates.inv`) and is matched by a run
of the abstract system (`Simulates.run`).
-/

namespace RiscvKernel.Lib.Refine

variable {S A W : Type*}

/-- The state after the actions. -/
def exec (step : S → A → Option S) : S → List A → Option S
  | s, [] => some s
  | s, a :: as => (step s a).bind fun s' => exec step s' as

/-- Every action may be taken when its turn comes. -/
def Allowed (step : S → A → Option S) (Ok : S → A → Prop) : S → List A → Prop
  | _, [] => True
  | s, a :: as => Ok s a ∧ ∀ s', step s a = some s' → Allowed step Ok s' as

/-- It can be decided by running. -/
def decidableAllowed (step : S → A → Option S) (Ok : S → A → Prop) [∀ s a, Decidable (Ok s a)] :
    ∀ s as, Decidable (Allowed step Ok s as)
  | _, [] => isTrue trivial
  | s, a :: as =>
    match h : step s a with
    | none => decidable_of_iff (Ok s a) ⟨fun hok => ⟨hok, fun s' hs => by rw [h] at hs; cases hs⟩, And.left⟩
    | some s1 =>
      have := decidableAllowed step Ok s1 as
      decidable_of_iff (Ok s a ∧ Allowed step Ok s1 as) (and_congr_right fun _ =>
        ⟨fun hall s' hs => by rw [h] at hs; cases hs; exact hall, fun hall => hall s1 h⟩)

instance (step : S → A → Option S) (Ok : S → A → Prop) [∀ s a, Decidable (Ok s a)] (s : S) (as : List A) :
    Decidable (Allowed step Ok s as) := decidableAllowed step Ok s as

/-- A run of the abstract system. -/
inductive Path (R : W → A → W → Prop) : W → List A → W → Prop
  | nil {w : W} : Path R w [] w
  | cons {w w' w'' : W} {a : A} {as : List A} : R w a w' → Path R w' as w'' → Path R w (a :: as) w''

/-- A step from a state with the invariant. -/
structure Simulates (step : S → A → Option S) (Ok : S → A → Prop) (I : S → Prop) (view : S → W) (R : W → A → W → Prop) :
    Prop where
  step : ∀ {s a}, I s → Ok s a → ∃ s', step s a = some s' ∧ I s' ∧ R (view s) a (view s')

section runs
variable {step : S → A → Option S} {Ok : S → A → Prop} {I : S → Prop} {view : S → W} {R : W → A → W → Prop} {s : S}
  {as : List A}

/-- A run goes through the state after its first action. -/
theorem exec_cons_iff {a : A} {s' : S} :
    exec step s (a :: as) = some s' ↔ ∃ s1, step s a = some s1 ∧ exec step s1 as = some s' := Option.bind_eq_some_iff

/-- **The runs are simulated.** -/
theorem Simulates.run (h : Simulates step Ok I view R) (h0 : I s) (hok : Allowed step Ok s as) :
    ∃ s', exec step s as = some s' ∧ I s' ∧ Path R (view s) as (view s') := by
  induction as generalizing s with
  | nil => exact ⟨s, rfl, h0, .nil⟩
  | cons a as ih =>
    obtain ⟨hok, hrest⟩ := hok
    obtain ⟨s1, heq, h1, hR⟩ := h.step h0 hok
    obtain ⟨s2, heq', h2, hP⟩ := ih h1 (hrest s1 heq)
    refine ⟨s2, ?_, h2, .cons hR hP⟩
    rw [exec, heq]
    exact heq'

/-- The invariant holds after a run. -/
theorem Simulates.inv (h : Simulates step Ok I view R) (h0 : I s) (hok : Allowed step Ok s as) {s' : S}
    (heq : exec step s as = some s') : I s' := by
  obtain ⟨s1, heq', h1, -⟩ := h.run h0 hok
  rw [heq] at heq'
  cases heq'
  exact h1

end runs

end RiscvKernel.Lib.Refine
