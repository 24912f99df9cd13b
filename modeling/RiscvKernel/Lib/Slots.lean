import Mathlib.Tactic

/-!
# Numbered items in a ring of slots

Item number `k` of a sequence lies in slot `k % n`. `Window n R lo xs` says that the items of `xs`
from number `lo` on are in their slots, where `R i x` says that slot `i` holds `x`. As long as fewer
than `n` items are in the window, the next item has a slot of its own. `items` reads a window out of the
slots.
-/

namespace RiscvKernel.Lib

variable {α : Type*} {n lo : ℕ} {R R' : ℕ → α → Prop} {xs : List α}

/-- The items from number `lo` on are in their slots. -/
def Window (n : ℕ) (R : ℕ → α → Prop) (lo : ℕ) (xs : List α) : Prop :=
  ∀ k x, lo ≤ k → xs[k]? = some x → R (k % n) x

/-- The slots of a window are different from the slot of the next item. -/
theorem slot_ne {k m : ℕ} (h1 : lo ≤ k) (h2 : k < m) (h3 : m < lo + n) : k % n ≠ m % n := by
  intro e
  have hd : n ∣ m - k := (Nat.modEq_iff_dvd' (by omega)).mp e
  have := Nat.le_of_dvd (by omega) hd
  omega

theorem Window.nil : Window n R lo [] := by
  intro k x _ h
  simp at h

/-- A change of slots outside the window. -/
theorem Window.congr (h : Window n R lo xs)
    (hR : ∀ k x, lo ≤ k → k < xs.length → R (k % n) x → R' (k % n) x) : Window n R' lo xs := by
  intro k x hk hx
  exact hR k x hk (List.getElem?_eq_some_iff.mp hx).1 (h k x hk hx)

/-- The next item is put in its slot. -/
theorem Window.push (h : Window n R lo xs) {x : α}
    (hR : ∀ k y, lo ≤ k → k < xs.length → R (k % n) y → R' (k % n) y)
    (hx : R' (xs.length % n) x) : Window n R' lo (xs ++ [x]) := by
  intro k y hk hy
  rcases Nat.lt_trichotomy k xs.length with hlt | rfl | hgt
  · rw [List.getElem?_append_left hlt] at hy
    exact hR k y hk hlt (h k y hk hy)
  · rw [List.getElem?_append_right le_rfl, Nat.sub_self, List.getElem?_cons_zero] at hy
    cases hy
    exact hx
  · rw [List.getElem?_eq_none (by simp; omega)] at hy
    cases hy

/-- The first item of the window is taken out. -/
theorem Window.pop (h : Window n R lo xs) : Window n R (lo + 1) xs :=
  fun k x hk hx => h k x (by omega) hx

/-- The first item of the window. -/
theorem Window.head (h : Window n R lo xs) (hlo : lo < xs.length) : R (lo % n) xs[lo] :=
  h lo _ le_rfl (List.getElem?_eq_getElem hlo)

/-- The number of the slot after the one of `k`. -/
theorem succ_slot (k n : ℕ) : (k % n + 1) % n = (k + 1) % n := by
  rw [Nat.mod_add_mod]

/-- The `k` items from slot `lo` on. -/
def items (n lo k : ℕ) (f : ℕ → α) : List α := (List.range k).map fun j => f ((lo + j) % n)

section items
variable {k : ℕ} {f : ℕ → α}

theorem items_length : (items n lo k f).length = k := by
  unfold items
  rw [List.length_map, List.length_range]

/-- A new item comes last. -/
theorem items_push (h : k < n) (x : α) :
    items n lo (k + 1) (Function.update f ((lo + k) % n) x) = items n lo k f ++ [x] := by
  unfold items
  rw [List.range_succ, List.map_append, List.map_singleton, Function.update_self]
  congr 1
  refine List.map_congr_left fun j hj => Function.update_of_ne ?_ x f
  have hj := List.mem_range.1 hj
  exact slot_ne (Nat.le_add_right lo j) (by omega) (by omega)

/-- The first item is the one in slot `lo`. -/
theorem items_pop (h : lo < n) : items n lo (k + 1) f = f lo :: items n ((lo + 1) % n) k f := by
  unfold items
  rw [List.range_succ_eq_map, List.map_cons, List.map_map, Nat.add_zero, Nat.mod_eq_of_lt h]
  congr 1
  refine List.map_congr_left fun j _ => ?_
  show f ((lo + (j + 1)) % n) = f (((lo + 1) % n + j) % n)
  rw [Nat.mod_add_mod, Nat.add_assoc, Nat.add_comm 1 j]

end items

end RiscvKernel.Lib
