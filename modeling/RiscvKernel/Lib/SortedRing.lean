import RiscvKernel.Lib.Ring

/-!
# Sorted circular lists

Linking an element into the middle of an intrusive list, at the place that a comparison gives, and
walks that look for an element and leave the list as it is.
-/

namespace RiscvKernel.Lib

variable {T H : Type*}

namespace Links

/-- The first node from the elements `ys` on. -/
def firstNode (b : T ⊕ H) : List T → T ⊕ H
  | [] => b
  | y :: _ => .inl y

variable {l l' : Links T H} {a b : T ⊕ H} {xs ys : List T}

theorem Seg.prev_first (h : l.Seg a (xs ++ ys) b) : l.prev (firstNode b ys) = lastNode a xs := by
  cases ys with
  | nil =>
    rw [List.append_nil] at h
    exact h.prev_last
  | cons y ys => exact (seg_append.mp h).1.prev_last

theorem firstNode_mem (b : T ⊕ H) (ys : List T) :
    firstNode b ys = b ∨ ∃ y ∈ ys, firstNode b ys = .inl y := by
  cases ys with
  | nil => exact Or.inl rfl
  | cons y ys => exact Or.inr ⟨y, List.mem_cons_self, rfl⟩

theorem lastNode_ne {t : T} {k : H} (ht : t ∉ xs) : lastNode (.inr k : T ⊕ H) xs ≠ .inl t := by
  rcases lastNode_mem (.inr k : T ⊕ H) xs with e | ⟨y, hy, e⟩
  · rw [e]
    exact Sum.inr_ne_inl
  · rw [e]
    exact fun he => ht (Sum.inl.inj he ▸ hy)

theorem firstNode_ne {t : T} {k : H} (ht : t ∉ ys) : firstNode (.inr k : T ⊕ H) ys ≠ .inl t := by
  rcases firstNode_mem (.inr k : T ⊕ H) ys with e | ⟨y, hy, e⟩
  · rw [e]
    exact Sum.inr_ne_inl
  · rw [e]
    exact fun he => ht (Sum.inl.inj he ▸ hy)

/-- A new node between two parts of a segment. -/
theorem Seg.link {t : T} (h : l.Seg a (xs ++ ys) b) (ha : a ≠ .inl t) (hax : ∀ x ∈ xs ++ ys, a ≠ .inl x)
    (ht : t ∉ xs ++ ys) (hb : ∀ x, b ≠ .inl x) (hn : (xs ++ ys).Nodup)
    (hl : l'.next (.inl t) = firstNode b ys) (hp : l'.prev (.inl t) = lastNode a xs)
    (hr : l'.next (lastNode a xs) = .inl t) (hq : l'.prev (firstNode b ys) = .inl t)
    (hN : ∀ y, y ≠ .inl t → y ≠ lastNode a xs → l'.next y = l.next y)
    (hP : ∀ y, y ≠ .inl t → y ≠ firstNode b ys → l'.prev y = l.prev y) :
    l'.Seg a (xs ++ t :: ys) b := by
  induction xs generalizing a with
  | nil =>
    refine ⟨⟨hr, hp⟩, ?_⟩
    cases ys with
    | nil => exact ⟨hl, hq⟩
    | cons y ys =>
      have hnd := List.nodup_cons.mp hn
      have hne : ∀ z ∈ y :: ys, (.inl z : T ⊕ H) ≠ .inl t :=
        fun z hz e => ht (Sum.inl.inj e ▸ hz)
      refine ⟨⟨hl, hq⟩, h.2.congr ?_ (fun z hz => ?_) (fun z hz => ?_) ?_⟩
      · exact hN _ (hne y List.mem_cons_self) (hax y List.mem_cons_self).symm
      · exact hN _ (hne z (List.mem_cons_of_mem _ hz)) (hax z (List.mem_cons_of_mem _ hz)).symm
      · refine hP _ (hne z (List.mem_cons_of_mem _ hz)) fun e => hnd.1 ?_
        exact Sum.inl.inj e ▸ hz
      · exact hP _ (hb t) (hb y)
  | cons x xs ih =>
    have hnd := List.nodup_cons.mp hn
    have hxt : (.inl x : T ⊕ H) ≠ .inl t := fun e => ht (Sum.inl.inj e ▸ List.mem_cons_self)
    have hxf : (.inl x : T ⊕ H) ≠ firstNode b ys := by
      rcases firstNode_mem b ys with e | ⟨y, hy, e⟩
      · rw [e]
        exact (hb x).symm
      · rw [e]
        exact fun he => hnd.1 (Sum.inl.inj he ▸ List.mem_append_right _ hy)
    refine ⟨⟨?_, ?_⟩, ih h.2 hxt (fun y hy => ?_) (fun hm => ht (List.mem_cons_of_mem _ hm)) hnd.2 hp hr
      hN⟩
    · rw [hN a ha (lastNode_cons_ne fun y hy => hax y (List.mem_append_left _ hy)), h.1.1]
    · rw [hP _ hxt hxf, h.1.2]
    · exact fun e => hnd.1 (Sum.inl.inj e ▸ hy)

variable [DecidableEq T] [DecidableEq H]

/-- Link `node` in before `pos`. -/
def link (node pos : T ⊕ H) (l : Links T H) : Links T H :=
  let prev := l.prev pos
  l |>.setPrev pos node |>.setNext prev node |>.setPrev node prev |>.setNext node pos

omit [DecidableEq T] in
/-- Walk from `node` to the first element that passes the test. -/
def findFrom (head : H) (judge : T → Bool) (l : Links T H) : ℕ → T ⊕ H → Option (Option T)
  | 0, _ => none
  | _ + 1, .inr h => if h = head then some none else none
  | fuel + 1, .inl t =>
    if judge t then some (some t) else findFrom head judge l fuel (l.next (.inl t))

omit [DecidableEq T] in
/-- Walk from `node` over the elements that have to stay in front. -/
def placeFrom (head : H) (front : T → Bool) (l : Links T H) : ℕ → T ⊕ H → Option (T ⊕ H)
  | 0, _ => none
  | _ + 1, .inr h => if h = head then some (.inr h) else none
  | fuel + 1, .inl t =>
    if front t then placeFrom head front l fuel (l.next (.inl t)) else some (.inl t)

/-- Put a node behind those that compare less. -/
def insertSorted (node : T) (head : H) (comp : T → T → Bool) (fuel : ℕ) (l : Links T H) :
    Option (Links T H) :=
  (placeFrom head (comp node) l fuel (l.next (.inr head))).map fun pos => link (.inl node) pos l

omit [DecidableEq T] in
/-- A walk to the end shows that every walk over the list comes to an end. -/
theorem findFrom_ends {head : H} {judge : T → Bool} {fuel : ℕ} {n : T ⊕ H}
    (h : findFrom head judge l fuel n = some none) (judge' : T → Bool) :
    findFrom head judge' l fuel n ≠ none ∧ placeFrom head judge' l fuel n ≠ none := by
  induction fuel generalizing n with
  | zero => cases h
  | succ fuel ih =>
    cases n with
    | inr k =>
      rw [findFrom] at h
      split_ifs at h with hk
      rw [findFrom, placeFrom, if_pos hk, if_pos hk]
      exact ⟨Option.some_ne_none _, Option.some_ne_none _⟩
    | inl t =>
      rw [findFrom] at h
      split_ifs at h with ht
      · cases h
      · obtain ⟨h1, h2⟩ := ih h
        rw [findFrom, placeFrom]
        constructor
        · split_ifs
          · exact Option.some_ne_none _
          · exact h1
        · split_ifs
          · exact h2
          · exact Option.some_ne_none _

end Links

namespace Rings

open Links

variable {l : Links T H} {q : H → List T} [DecidableEq T] [DecidableEq H]

/-- **link** puts an element that is in no list between two parts of one. -/
theorem link {t : T} {k : H} {xs ys : List T} (h : Rings l q) (hq : q k = xs ++ ys)
    (ht : ∀ k', t ∉ q k') :
    Rings (Links.link (.inl t) (firstNode (.inr k) ys) l) (Function.update q k (xs ++ t :: ys)) := by
  have hs := h.seg k
  have hnd := h.nodup k
  have htk := ht k
  rw [hq] at hs hnd htk
  have hprev : l.prev (firstNode (.inr k) ys) = lastNode (.inr k) xs := hs.prev_first
  have hf : (firstNode (.inr k) ys : T ⊕ H) ≠ .inl t :=
    firstNode_ne fun hm => htk (List.mem_append_right _ hm)
  have hlt : (lastNode (.inr k) xs : T ⊕ H) ≠ .inl t :=
    lastNode_ne fun hm => htk (List.mem_append_left _ hm)
  have hN : ∀ y, y ≠ .inl t → y ≠ lastNode (.inr k) xs →
      (Links.link (.inl t) (firstNode (.inr k) ys) l).next y = l.next y := by
    intro y h1 h2
    simp only [Links.link, setNext, setPrev, hprev]
    rw [Function.update_of_ne h1, Function.update_of_ne h2]
  have hP : ∀ y, y ≠ .inl t → y ≠ firstNode (.inr k) ys →
      (Links.link (.inl t) (firstNode (.inr k) ys) l).prev y = l.prev y := by
    intro y h1 h2
    simp only [Links.link, setNext, setPrev]
    rw [Function.update_of_ne h1, Function.update_of_ne h2]
  refine h.update_of_seg ?_ ?_ ?_ ?_
  · refine hs.link Sum.inr_ne_inl (fun x _ => Sum.inr_ne_inl) htk (fun x => Sum.inr_ne_inl) hnd ?_ ?_ ?_ ?_
      hN hP
    · simp only [Links.link, setNext, setPrev, Function.update_self]
    · simp only [Links.link, setNext, setPrev, hprev, Function.update_self]
    · simp only [Links.link, setNext, setPrev, hprev]
      rw [Function.update_of_ne hlt, Function.update_self]
    · simp only [Links.link, setNext, setPrev]
      rw [Function.update_of_ne hf, Function.update_self]
  · exact List.nodup_middle.mpr (List.nodup_cons.mpr ⟨htk, hnd⟩)
  · intro y hy k' hk' hm
    rcases List.mem_cons.mp (List.perm_middle.mem_iff.mp hy) with rfl | hy
    · exact ht k' hm
    · exact hk' (h.disj hm (hq ▸ hy))
  · intro k' hk'
    have hne : ∀ y ∈ q k', (.inl y : T ⊕ H) ≠ .inl t := fun y hy e => ht k' (Sum.inl.inj e ▸ hy)
    have hother : ∀ y ∈ q k', ∀ z ∈ xs ++ ys, (.inl y : T ⊕ H) ≠ .inl z :=
      fun y hy z hz e => hk' (h.disj hy (hq ▸ Sum.inl.inj e ▸ hz))
    have hlast : (.inr k' : T ⊕ H) ≠ lastNode (.inr k) xs ∧
        ∀ y ∈ q k', (.inl y : T ⊕ H) ≠ lastNode (.inr k) xs := by
      rcases lastNode_mem (.inr k : T ⊕ H) xs with e | ⟨z, hz, e⟩
      · rw [e]
        exact ⟨fun e => hk' (Sum.inr.inj e), fun _ _ => Sum.inl_ne_inr⟩
      · rw [e]
        exact ⟨Sum.inr_ne_inl, fun y hy => hother y hy z (List.mem_append_left _ hz)⟩
    have hfirst : (.inr k' : T ⊕ H) ≠ firstNode (.inr k) ys ∧
        ∀ y ∈ q k', (.inl y : T ⊕ H) ≠ firstNode (.inr k) ys := by
      rcases firstNode_mem (.inr k : T ⊕ H) ys with e | ⟨z, hz, e⟩
      · rw [e]
        exact ⟨fun e => hk' (Sum.inr.inj e), fun _ _ => Sum.inl_ne_inr⟩
      · rw [e]
        exact ⟨Sum.inr_ne_inl, fun y hy => hother y hy z (List.mem_append_right _ hz)⟩
    refine (h.seg k').congr (hN _ Sum.inr_ne_inl hlast.1) (fun y hy => hN _ (hne y hy) (hlast.2 y hy))
      (fun y hy => hP _ (hne y hy) (hfirst.2 y hy)) (hP _ Sum.inr_ne_inl hfirst.1)

omit [DecidableEq T] in
/-- The walk finds the first element that passes. -/
theorem findFrom {k : H} {judge : T → Bool} {fuel : ℕ} {ys : List T} {a : T ⊕ H}
    (h : l.Seg a ys (.inr k)) (hlt : ys.length < fuel) :
    Links.findFrom k judge l fuel (l.next a) = some (ys.find? judge) := by
  induction fuel generalizing ys a with
  | zero => omega
  | succ fuel ih =>
    cases ys with
    | nil =>
      rw [h.next_nil, Links.findFrom, if_pos rfl]
      rfl
    | cons y ys =>
      rw [h.next_cons, Links.findFrom, ih h.2 (Nat.lt_of_succ_lt_succ hlt), List.find?_cons]
      cases judge y <;> rfl

omit [DecidableEq T] in
/-- The walk stops at the first element that need not stay in front. -/
theorem placeFrom {k : H} {front : T → Bool} {fuel : ℕ} {ys : List T} {a : T ⊕ H}
    (h : l.Seg a ys (.inr k)) (hlt : ys.length < fuel) :
    Links.placeFrom k front l fuel (l.next a) = some (firstNode (.inr k) (ys.dropWhile front)) := by
  induction fuel generalizing ys a with
  | zero => omega
  | succ fuel ih =>
    cases ys with
    | nil =>
      rw [h.next_nil, Links.placeFrom, if_pos rfl]
      rfl
    | cons y ys =>
      rw [h.next_cons, Links.placeFrom, ih h.2 (Nat.lt_of_succ_lt_succ hlt), List.dropWhile_cons]
      cases front y <;> rfl

/-- **insertSorted** puts an element behind the front ones. -/
theorem insertSorted {t : T} {k : H} {fuel : ℕ} (h : Rings l q) (comp : T → T → Bool)
    (hlt : (q k).length < fuel) (ht : ∀ k', t ∉ q k') :
    ∃ l', Links.insertSorted t k comp fuel l = some l' ∧
      Rings l' (Function.update q k
        ((q k).takeWhile (comp t) ++ t :: (q k).dropWhile (comp t))) := by
  refine ⟨_, ?_, h.link List.takeWhile_append_dropWhile.symm ht⟩
  rw [Links.insertSorted, placeFrom (h.seg k) hlt]
  rfl

end Rings

/-- A new element has its place behind those with a smaller key. -/
theorem pairwise_insert {α : Type*} [LinearOrder α] (key : T → α) {t : T} {q : List T}
    (h : q.Pairwise fun i j => key i < key j) (hne : ∀ j ∈ q, key j ≠ key t) :
    (q.takeWhile (fun j => key j < key t) ++ t :: q.dropWhile (fun j => key j < key t)).Pairwise
      fun i j => key i < key j := by
  induction q with
  | nil => exact List.pairwise_singleton _ _
  | cons y ys ih =>
    obtain ⟨hy, hys⟩ := List.pairwise_cons.mp h
    by_cases hlt : key y < key t
    · rw [List.takeWhile_cons_of_pos (by simpa using hlt), List.dropWhile_cons_of_pos (by simpa using hlt),
        List.cons_append]
      refine List.pairwise_cons.mpr ⟨fun z hz => ?_, ih hys fun j hj => hne j (List.mem_cons_of_mem _ hj)⟩
      rcases List.mem_cons.mp (List.perm_middle.mem_iff.mp hz) with rfl | hz
      · exact hlt
      · rw [List.takeWhile_append_dropWhile] at hz
        exact hy z hz
    · rw [List.takeWhile_cons_of_neg (by simpa using hlt), List.dropWhile_cons_of_neg (by simpa using hlt),
        List.nil_append]
      have hgt : key t < key y := lt_of_le_of_ne (not_lt.mp hlt) (hne y List.mem_cons_self).symm
      refine List.pairwise_cons.mpr ⟨fun z hz => ?_, h⟩
      rcases List.mem_cons.mp hz with rfl | hz
      · exact hgt
      · exact hgt.trans (hy z hz)

end RiscvKernel.Lib
