import Mathlib.Tactic

/-!
# Intrusive circular lists

Nodes carry their own `next` and `prev` pointers. A node is either embedded in an element of type
`T` or is the head of the list named by an `H`. `Rings l q` says that the pointers `l` form one
circular list for every head, that the elements of the list of `h` are `q h` in this order, and that
no element is in two lists.

For every operation there is one lemma: what it does to the pointers is what the corresponding
operation on sequences does to `q`.
-/

namespace RiscvKernel.Lib

variable {T H : Type*}

/-- The pointers of all nodes. -/
structure Links (T H : Type*) where
  next : T ⊕ H → T ⊕ H
  prev : T ⊕ H → T ⊕ H

namespace Links

/-! ## Segments -/

/-- `b` follows `a`. -/
def Adj (l : Links T H) (a b : T ⊕ H) : Prop := l.next a = b ∧ l.prev b = a

/-- The nodes from `a` to `b` are `xs`. -/
def Seg (l : Links T H) : T ⊕ H → List T → T ⊕ H → Prop
  | a, [], b => l.Adj a b
  | a, x :: xs, b => l.Adj a (.inl x) ∧ Seg l (.inl x) xs b

/-- The last node before the end of a segment. -/
def lastNode : T ⊕ H → List T → T ⊕ H
  | a, [] => a
  | _, x :: xs => lastNode (.inl x) xs

theorem lastNode_mem (a : T ⊕ H) (xs : List T) :
    lastNode a xs = a ∨ ∃ x ∈ xs, lastNode a xs = .inl x := by
  induction xs generalizing a with
  | nil => exact Or.inl rfl
  | cons x xs ih =>
    rcases ih (.inl x) with h | ⟨y, hy, h⟩
    · exact Or.inr ⟨x, by simp, h⟩
    · exact Or.inr ⟨y, by simp [hy], h⟩

theorem lastNode_cons_ne {a : T ⊕ H} {x : T} {xs : List T} (h : ∀ y ∈ x :: xs, a ≠ .inl y) :
    a ≠ lastNode a (x :: xs) := by
  rcases lastNode_mem (.inl x : T ⊕ H) xs with e | ⟨y, hy, e⟩
  · exact fun he => h x (by simp) (he.trans e)
  · exact fun he => h y (by simp [hy]) (he.trans e)

variable {l l' : Links T H} {a b : T ⊕ H} {x : T} {xs ys : List T}

theorem Seg.prev_last (h : l.Seg a xs b) : l.prev b = lastNode a xs := by
  induction xs generalizing a with
  | nil => exact h.2
  | cons x xs ih => exact ih h.2

theorem Seg.next_nil (h : l.Seg a [] b) : l.next a = b := h.1

theorem Seg.next_cons (h : l.Seg a (x :: xs) b) : l.next a = .inl x := h.1.1

/-- There is one way from a node to a head. -/
theorem Seg.unique {k : H} {ys : List T} (h1 : l.Seg a xs (.inr k)) (h2 : l.Seg a ys (.inr k)) : xs = ys := by
  induction xs generalizing a ys with
  | nil =>
    cases ys with
    | nil => rfl
    | cons y ys => exact absurd (h1.next_nil.symm.trans h2.next_cons) (by simp)
  | cons x xs ih =>
    cases ys with
    | nil => exact absurd (h2.next_nil.symm.trans h1.next_cons) (by simp)
    | cons y ys =>
      obtain rfl : x = y := Sum.inl.inj (h1.next_cons.symm.trans h2.next_cons)
      rw [ih h1.2 h2.2]

theorem seg_append : l.Seg a (xs ++ x :: ys) b ↔ l.Seg a xs (.inl x) ∧ l.Seg (.inl x) ys b := by
  induction xs generalizing a with
  | nil => rfl
  | cons y xs ih =>
    show l.Adj a (.inl y) ∧ l.Seg (.inl y) (xs ++ x :: ys) b ↔ (l.Adj a (.inl y) ∧ _) ∧ _
    rw [ih, and_assoc]

/-- A segment depends only on the pointers along it. -/
theorem Seg.congr (h : l.Seg a xs b) (ha : l'.next a = l.next a)
    (hn : ∀ x ∈ xs, l'.next (.inl x) = l.next (.inl x))
    (hp : ∀ x ∈ xs, l'.prev (.inl x) = l.prev (.inl x)) (hb : l'.prev b = l.prev b) :
    l'.Seg a xs b := by
  induction xs generalizing a with
  | nil => exact ⟨ha.trans h.1, hb.trans h.2⟩
  | cons x xs ih =>
    refine ⟨⟨ha.trans h.1.1, (hp x (by simp)).trans h.1.2⟩, ?_⟩
    exact ih h.2 (hn x (by simp)) (fun y hy => hn y (by simp [hy])) (fun y hy => hp y (by simp [hy]))

/-- Linking a new node in before the end of a segment. -/
theorem Seg.enqueue {t : T} (h : l.Seg a xs b) (ha : a ≠ .inl t) (hax : ∀ x ∈ xs, a ≠ .inl x)
    (ht : t ∉ xs) (hb : ∀ x, b ≠ .inl x) (hn : xs.Nodup) (hl : l'.next (.inl t) = b)
    (hp : l'.prev (.inl t) = lastNode a xs) (hr : l'.next (lastNode a xs) = .inl t)
    (hq : l'.prev b = .inl t)
    (hN : ∀ y, y ≠ .inl t → y ≠ lastNode a xs → l'.next y = l.next y)
    (hP : ∀ y, y ≠ .inl t → y ≠ b → l'.prev y = l.prev y) : l'.Seg a (xs ++ [t]) b := by
  induction xs generalizing a with
  | nil => exact ⟨⟨hr, hp⟩, hl, hq⟩
  | cons x xs ih =>
    have hx : x ≠ t := by rintro rfl; exact ht (by simp)
    have hnd := List.nodup_cons.1 hn
    refine ⟨⟨?_, ?_⟩, ?_⟩
    · rw [hN a ha (lastNode_cons_ne hax), h.1.1]
    · rw [hP _ (by simpa using hx) (hb x).symm, h.1.2]
    · refine ih h.2 (by simpa using hx) (fun y hy => ?_) (fun hy => ht (by simp [hy])) hnd.2 hp hr hN
      rintro e
      obtain rfl := Sum.inl.inj e
      exact hnd.1 hy

/-- Bypassing a node in the middle of a segment. -/
theorem Seg.bypass {t : T} (h1 : l.Seg a xs (.inl t)) (h2 : l.Seg (.inl t) ys b)
    (ha : a ≠ .inl t) (hax : ∀ x ∈ xs, a ≠ .inl x) (hay : ∀ y ∈ ys, a ≠ .inl y)
    (hb : ∀ x, b ≠ .inl x) (hn : (xs ++ t :: ys).Nodup)
    (hr : l'.next (lastNode a xs) = l.next (.inl t)) (hq : l'.prev (l.next (.inl t)) = lastNode a xs)
    (hN : ∀ y, y ≠ .inl t → y ≠ lastNode a xs → l'.next y = l.next y)
    (hP : ∀ y, y ≠ .inl t → y ≠ l.next (.inl t) → l'.prev y = l.prev y) : l'.Seg a (xs ++ ys) b := by
  induction xs generalizing a with
  | nil =>
    cases ys with
    | nil =>
      rw [h2.next_nil] at hr hq
      exact ⟨hr, hq⟩
    | cons y ys =>
      rw [h2.next_cons] at hr hq hP
      simp only [List.nil_append, List.nodup_cons, List.mem_cons, not_or] at hn
      refine ⟨⟨hr, hq⟩, h2.2.congr ?_ ?_ ?_ ?_⟩
      · exact hN _ (by simpa using Ne.symm hn.1.1) (Ne.symm (hay y (by simp)))
      · intro z hz
        have hzt : z ≠ t := by rintro rfl; exact hn.1.2 hz
        exact hN _ (by simpa using hzt) (Ne.symm (hay z (by simp [hz])))
      · intro z hz
        have hzt : z ≠ t := by rintro rfl; exact hn.1.2 hz
        have hzy : z ≠ y := by rintro rfl; exact hn.2.1 hz
        exact hP _ (by simpa using hzt) (by simpa using hzy)
      · exact hP _ (hb t) (hb y)
  | cons x xs ih =>
    simp only [List.cons_append, List.nodup_cons, List.mem_append, List.mem_cons, not_or] at hn
    have hxn : (.inl x : T ⊕ H) ≠ l.next (.inl t) := by
      cases ys with
      | nil => rw [h2.next_nil]; exact (hb x).symm
      | cons y ys =>
        rw [h2.next_cons]
        rintro e
        obtain rfl := Sum.inl.inj e
        exact hn.1.2.2 (by simp)
    refine ⟨⟨?_, ?_⟩, ?_⟩
    · rw [hN a ha (lastNode_cons_ne hax), h1.1.1]
    · rw [hP _ (by simpa using hn.1.2.1) hxn, h1.1.2]
    · refine ih h1.2 (by simpa using hn.1.2.1) ?_ ?_ hn.2 hr hq hN
      · intro y hy e
        obtain rfl := Sum.inl.inj e
        exact hn.1.1 hy
      · intro y hy e
        obtain rfl := Sum.inl.inj e
        exact hn.1.2.2 hy

/-! ## The operations -/

variable [DecidableEq T] [DecidableEq H]

/-- Set a `next` pointer. -/
def setNext (a b : T ⊕ H) (l : Links T H) : Links T H := { l with next := Function.update l.next a b }

/-- Set a `prev` pointer. -/
def setPrev (a b : T ⊕ H) (l : Links T H) : Links T H := { l with prev := Function.update l.prev a b }

/-- Make a node point to itself. -/
def initQueue (n : T ⊕ H) (l : Links T H) : Links T H := l |>.setNext n n |>.setPrev n n

/-- Is the list of the head empty? -/
def isEmptyQueue (h : T ⊕ H) (l : Links T H) : Bool := l.next h = h || l.prev h = h

/-- Put a node at the end. -/
def enqueue (node head : T ⊕ H) (l : Links T H) : Links T H :=
  let rear := l.prev head
  l |>.setNext node head |>.setPrev node rear |>.setNext rear node |>.setPrev head node

/-- Take the first node, if there is one. -/
def dequeue (head : T ⊕ H) (l : Links T H) : Option (T ⊕ H) × Links T H :=
  if isEmptyQueue head l then (none, l)
  else
    let front := l.next head
    let l := l.setNext head (l.next front)
    let l := l.setPrev (l.next front) head
    (some front, l |>.setNext front front |>.setPrev front front)

/-- Take a node out of its list. -/
def delNode (node : T ⊕ H) (l : Links T H) : Links T H :=
  let prev := l.prev node
  let next := l.next node
  l |>.setNext prev next |>.setPrev next prev |>.setPrev node node |>.setNext node node

/-- Walk from `node` to the first element that passes the test and take it out. The walk fails when
it gets to the head of another list. -/
def visitFrom (head : H) (judge : T → Bool) (l : Links T H) :
    ℕ → T ⊕ H → Option (Option T × Links T H)
  | 0, _ => none
  | _ + 1, .inr h => if h = head then some (none, l) else none
  | fuel + 1, .inl t =>
    if judge t then some (some t, delNode (.inl t) l)
    else visitFrom head judge l fuel (l.next (.inl t))

/-- Walk from `node` to find `x`. -/
def isInFrom (x head : T ⊕ H) (l : Links T H) : ℕ → T ⊕ H → Option Bool
  | 0, _ => none
  | fuel + 1, node =>
    if node = head then some false
    else if x = node then some true
    else isInFrom x head l fuel (l.next node)

end Links

/-! ## Lists and their contents -/

/-- The pointers form the lists `q`. -/
structure Rings (l : Links T H) (q : H → List T) : Prop where
  seg : ∀ h, l.Seg (.inr h) (q h) (.inr h)
  nodup : ∀ h, (q h).Nodup
  disj : ∀ {h h' t}, t ∈ q h → t ∈ q h' → h = h'

namespace Rings

open Links

variable {l : Links T H} {q : H → List T}

/-- The contents are determined by the pointers. -/
theorem unique {q' : H → List T} (h : Rings l q) (h' : Rings l q') : q = q' :=
  funext fun k => (h.seg k).unique (h'.seg k)

/-- Pointers of nodes in no list may change. -/
theorem congr {l' : Links T H} (h : Rings l q) (hh : ∀ k, l'.next (.inr k) = l.next (.inr k) ∧
    l'.prev (.inr k) = l.prev (.inr k)) (ht : ∀ k, ∀ t ∈ q k, l'.next (.inl t) = l.next (.inl t) ∧
    l'.prev (.inl t) = l.prev (.inl t)) : Rings l' q where
  seg k := (h.seg k).congr (hh k).1 (fun t m => (ht k t m).1) (fun t m => (ht k t m).2) (hh k).2
  nodup := h.nodup
  disj := h.disj

/-- The last node of the list of `k` belongs to this list. -/
theorem last_ne (h : Rings l q) {k k' : H} (hk : k' ≠ k) :
    (.inr k' : T ⊕ H) ≠ lastNode (.inr k) (q k) ∧
      ∀ t ∈ q k', (.inl t : T ⊕ H) ≠ lastNode (.inr k) (q k) := by
  rcases lastNode_mem (.inr k : T ⊕ H) (q k) with e | ⟨y, hy, e⟩
  · rw [e]; exact ⟨by simpa using hk, by simp⟩
  · rw [e]
    refine ⟨by simp, fun t ht he => hk ?_⟩
    obtain rfl := Sum.inl.inj he
    exact h.disj ht hy

theorem prev_of_mem {t : T} {k : H} {xs ys : List T} (h : Rings l q) (hq : q k = xs ++ t :: ys) :
    l.prev (.inl t) = lastNode (.inr k) xs := by
  have hs := h.seg k
  rw [hq] at hs
  exact (seg_append.1 hs).1.prev_last

variable [DecidableEq T] [DecidableEq H]

theorem isEmptyQueue (h : Rings l q) (k : H) : Links.isEmptyQueue (.inr k) l = (q k).isEmpty := by
  have hs := h.seg k
  unfold Links.isEmptyQueue
  cases hq : q k with
  | nil =>
    rw [hq] at hs
    simp [hs.next_nil]
  | cons x xs =>
    rw [hq] at hs
    have hp : l.prev (.inr k) ≠ .inr k := by
      rw [hs.prev_last]
      rcases lastNode_mem (.inl x : T ⊕ H) xs with e | ⟨y, -, e⟩
      · rw [lastNode, e]; simp
      · rw [lastNode, e]; simp
    simp [hs.next_cons, hp]

/-- Initialising a node that is in no list. -/
theorem initQueue_inl {t : T} (h : Rings l q) (ht : ∀ k, t ∉ q k) :
    Rings (initQueue (.inl t) l) q := by
  refine h.congr (fun k => ⟨rfl, rfl⟩) (fun k y hy => ?_)
  have hne : y ≠ t := by rintro rfl; exact ht k hy
  simp [initQueue, setNext, setPrev, hne]

/-- Initialising the head of an empty list changes nothing. -/
theorem initQueue_inr {k : H} (h : Rings l q) (hk : q k = []) : initQueue (.inr k) l = l := by
  have hs := h.seg k
  rw [hk] at hs
  have h1 : Function.update l.next (.inr k) (.inr k) = l.next :=
    Function.update_eq_self_iff.2 hs.1.symm
  have h2 : Function.update l.prev (.inr k) (.inr k) = l.prev :=
    Function.update_eq_self_iff.2 hs.2.symm
  rw [initQueue, setNext, setPrev, h1, h2]

omit [DecidableEq T] in
/-- The lists after a change of the list of `k`. -/
theorem update_of_seg {l' : Links T H} {k : H} {xs : List T} (h : Rings l q)
    (hs : l'.Seg (.inr k) xs (.inr k)) (hn : xs.Nodup) (hd : ∀ t ∈ xs, ∀ k', k' ≠ k → t ∉ q k')
    (hf : ∀ k', k' ≠ k → l'.Seg (.inr k') (q k') (.inr k')) :
    Rings l' (Function.update q k xs) where
  seg k' := by
    by_cases e : k' = k
    · subst e; rwa [Function.update_self]
    · rw [Function.update_of_ne e]; exact hf k' e
  nodup k' := by
    by_cases e : k' = k
    · subst e; rwa [Function.update_self]
    · rw [Function.update_of_ne e]; exact h.nodup k'
  disj := by
    intro k1 k2 t h1 h2
    by_cases e1 : k1 = k <;> by_cases e2 : k2 = k
    · rw [e1, e2]
    · subst e1
      rw [Function.update_self] at h1
      rw [Function.update_of_ne e2] at h2
      exact absurd h2 (hd t h1 k2 e2)
    · subst e2
      rw [Function.update_self] at h2
      rw [Function.update_of_ne e1] at h1
      exact absurd h1 (hd t h2 k1 e1)
    · rw [Function.update_of_ne e1] at h1
      rw [Function.update_of_ne e2] at h2
      exact h.disj h1 h2

/-- **enqueue** appends an element that is in no list. -/
theorem enqueue {t : T} {k : H} (h : Rings l q) (ht : ∀ k', t ∉ q k') :
    Rings (Links.enqueue (.inl t) (.inr k) l) (Function.update q k (q k ++ [t])) := by
  have hlast : l.prev (.inr k) = lastNode (.inr k) (q k) := (h.seg k).prev_last
  have hlt : (lastNode (.inr k) (q k) : T ⊕ H) ≠ .inl t := by
    rcases lastNode_mem (.inr k : T ⊕ H) (q k) with e | ⟨y, hy, e⟩
    · rw [e]; simp
    · rw [e]
      rintro e'
      obtain rfl := Sum.inl.inj e'
      exact ht k hy
  have hN : ∀ y, y ≠ .inl t → y ≠ lastNode (.inr k) (q k) →
      (Links.enqueue (.inl t) (.inr k) l).next y = l.next y := by
    intro y h1 h2
    simp only [Links.enqueue, setNext, setPrev, hlast]
    rw [Function.update_of_ne h2, Function.update_of_ne h1]
  have hP : ∀ y, y ≠ .inl t → y ≠ .inr k →
      (Links.enqueue (.inl t) (.inr k) l).prev y = l.prev y := by
    intro y h1 h2
    simp only [Links.enqueue, setNext, setPrev]
    rw [Function.update_of_ne h2, Function.update_of_ne h1]
  refine h.update_of_seg ?_ ?_ ?_ ?_
  · refine (h.seg k).enqueue (by simp) (by simp) (ht k) (by simp) (h.nodup k) ?_ ?_ ?_ ?_ hN hP
    · simp only [Links.enqueue, setNext, setPrev, hlast]
      rw [Function.update_of_ne hlt.symm, Function.update_self]
    · simp only [Links.enqueue, setNext, setPrev, hlast]
      rw [Function.update_of_ne (by simp), Function.update_self]
    · simp only [Links.enqueue, setNext, setPrev, hlast, Function.update_self]
    · simp only [Links.enqueue, setNext, setPrev, Function.update_self]
  · simpa [List.nodup_append] using ⟨h.nodup k, fun y hy e => ht k (e ▸ hy)⟩
  · intro y hy k' hk' hm
    rcases List.mem_append.1 hy with hy | hy
    · exact hk' (h.disj hm hy)
    · exact ht k' ((List.mem_singleton.1 hy) ▸ hm)
  · intro k' hk'
    have hl := h.last_ne hk'
    have hne : ∀ y ∈ q k', y ≠ t := fun y hy e => ht k' (e ▸ hy)
    refine (h.seg k').congr (hN _ (by simp) hl.1) (fun y hy => ?_) (fun y hy => ?_) ?_
    · exact hN _ (by simpa using hne y hy) (hl.2 y hy)
    · exact hP _ (by simpa using hne y hy) (by simp)
    · exact hP _ (by simp) (by simpa using hk')

omit [DecidableEq T] in
/-- Bypassing a member and making it point to itself. -/
theorem bypass {l' : Links T H} {t : T} {k : H} {xs ys : List T} (h : Rings l q)
    (hq : q k = xs ++ t :: ys) (hr : l'.next (lastNode (.inr k) xs) = l.next (.inl t))
    (hl : l'.prev (l.next (.inl t)) = lastNode (.inr k) xs)
    (hN : ∀ y, y ≠ .inl t → y ≠ lastNode (.inr k) xs → l'.next y = l.next y)
    (hP : ∀ y, y ≠ .inl t → y ≠ l.next (.inl t) → l'.prev y = l.prev y) :
    Rings l' (Function.update q k (xs ++ ys)) := by
  have hs := h.seg k
  have hnd := h.nodup k
  rw [hq] at hs hnd
  have hseg := seg_append.1 hs
  have hmem : ∀ y ∈ xs ++ ys, y ∈ q k := by
    intro y hy
    rw [hq]
    rcases List.mem_append.1 hy with hy | hy <;> simp [hy]
  have htk : t ∈ q k := by rw [hq]; simp
  have hother : ∀ k', k' ≠ k → ∀ y ∈ q k', ∀ z ∈ q k, y ≠ z := by
    rintro k' hk' y hy z hz rfl
    exact hk' (h.disj hy hz)
  refine h.update_of_seg ?_ ?_ ?_ ?_
  · exact hseg.1.bypass hseg.2 (by simp) (by simp) (by simp) (by simp) hnd hr hl hN hP
  · exact (List.nodup_middle.1 hnd).of_cons
  · exact fun y hy k' hk' hm => hk' (h.disj hm (hmem y hy))
  · intro k' hk'
    have hlast : (.inr k' : T ⊕ H) ≠ lastNode (.inr k) xs ∧
        ∀ y ∈ q k', (.inl y : T ⊕ H) ≠ lastNode (.inr k) xs := by
      rcases lastNode_mem (.inr k : T ⊕ H) xs with e | ⟨z, hz, e⟩
      · rw [e]; exact ⟨by simpa using hk', by simp⟩
      · rw [e]
        exact ⟨by simp, fun y hy he => hother k' hk' y hy z (by rw [hq]; simp [hz]) (Sum.inl.inj he)⟩
    have hnext : (.inr k' : T ⊕ H) ≠ l.next (.inl t) ∧
        ∀ y ∈ q k', (.inl y : T ⊕ H) ≠ l.next (.inl t) := by
      cases ys with
      | nil => rw [hseg.2.next_nil]; exact ⟨by simpa using hk', by simp⟩
      | cons z zs =>
        rw [hseg.2.next_cons]
        exact ⟨by simp, fun y hy he => hother k' hk' y hy z (by rw [hq]; simp) (Sum.inl.inj he)⟩
    have hyt : ∀ y ∈ q k', (.inl y : T ⊕ H) ≠ .inl t :=
      fun y hy he => hother k' hk' y hy t htk (Sum.inl.inj he)
    refine (h.seg k').congr (hN _ (by simp) hlast.1) (fun y hy => ?_) (fun y hy => ?_) ?_
    · exact hN _ (hyt y hy) (hlast.2 y hy)
    · exact hP _ (hyt y hy) (hnext.2 y hy)
    · exact hP _ (by simp) hnext.1

/-- **del_node** takes a member out of its list. -/
theorem delNode {t : T} {k : H} {xs ys : List T} (h : Rings l q) (hq : q k = xs ++ t :: ys) :
    Rings (Links.delNode (.inl t) l) (Function.update q k (xs ++ ys)) := by
  have hs := h.seg k
  have hnd := h.nodup k
  rw [hq] at hs hnd
  have hseg := (seg_append.1 hs).2
  have hprev := h.prev_of_mem hq
  have hlt : (lastNode (.inr k) xs : T ⊕ H) ≠ .inl t := by
    rcases lastNode_mem (.inr k : T ⊕ H) xs with e | ⟨y, hy, e⟩
    · rw [e]; simp
    · rw [e]
      rintro e'
      obtain rfl := Sum.inl.inj e'
      exact (List.nodup_middle.1 hnd).notMem (by simp [hy])
  have hnt : l.next (.inl t) ≠ .inl t := by
    cases ys with
    | nil => rw [hseg.next_nil]; simp
    | cons z zs =>
      rw [hseg.next_cons]
      rintro e'
      obtain rfl := Sum.inl.inj e'
      exact (List.nodup_middle.1 hnd).notMem (by simp)
  refine h.bypass hq ?_ ?_ ?_ ?_
  · simp only [Links.delNode, setNext, setPrev, hprev]
    rw [Function.update_of_ne hlt, Function.update_self]
  · simp only [Links.delNode, setNext, setPrev, hprev]
    rw [Function.update_of_ne hnt, Function.update_self]
  · intro y h1 h2
    simp only [Links.delNode, setNext, setPrev, hprev]
    rw [Function.update_of_ne h1, Function.update_of_ne h2]
  · intro y h1 h2
    simp only [Links.delNode, setNext, setPrev, hprev]
    rw [Function.update_of_ne h1, Function.update_of_ne h2]

end Rings

/-- Taking a node out that points to itself changes nothing. -/
theorem Links.delNode_self [DecidableEq T] [DecidableEq H] {l : Links T H} {a : T ⊕ H}
    (hn : l.next a = a) (hp : l.prev a = a) : Links.delNode a l = l := by
  have h1 : Function.update l.next a a = l.next := Function.update_eq_self_iff.2 hn.symm
  have h2 : Function.update l.prev a a = l.prev := Function.update_eq_self_iff.2 hp.symm
  simp only [Links.delNode, setNext, setPrev, hn, hp, h1, h2]

namespace Rings

open Links

variable {l : Links T H} {q : H → List T} [DecidableEq T] [DecidableEq H]

/-- **dequeue** takes the first element and leaves it pointing to itself. -/
theorem dequeue_cons {t : T} {k : H} {xs : List T} (h : Rings l q) (hq : q k = t :: xs) :
    ∃ l', Links.dequeue (.inr k) l = (some (.inl t), l') ∧ Rings l' (Function.update q k xs) ∧
      Links.delNode (.inl t) l' = l' := by
  have hs := h.seg k
  have hnd := h.nodup k
  rw [hq] at hs hnd
  have hfront : l.next (.inr k) = .inl t := hs.next_cons
  have hnt : l.next (.inl t) ≠ .inl t := by
    cases xs with
    | nil => rw [hs.2.next_nil]; simp
    | cons z zs =>
      rw [hs.2.next_cons]
      rintro e'
      obtain rfl := Sum.inl.inj e'
      exact hnd.notMem (by simp)
  have hit : (.inl t : T ⊕ H) ≠ .inr k := by simp
  refine ⟨_, by rw [Links.dequeue, h.isEmptyQueue, hq, hfront]; rfl, ?_, ?_⟩
  · refine h.bypass (show _ = [] ++ _ :: _ from hq) ?_ ?_ ?_ ?_
    · simp only [lastNode, setNext, setPrev]
      rw [Function.update_of_ne hit.symm, Function.update_self]
    · show Function.update _ _ _ _ = _
      rw [Function.update_of_ne hnt]
      simp only [setNext, setPrev]
      rw [Function.update_of_ne hit, Function.update_self]
      rfl
    · intro y h1 h2
      have h2 : y ≠ .inr k := h2
      simp only [setNext, setPrev]
      rw [Function.update_of_ne h1, Function.update_of_ne h2]
    · intro y h1 h2
      simp only [setNext, setPrev]
      rw [Function.update_of_ne h1, Function.update_of_ne hit, Function.update_of_ne h2]
  · apply delNode_self
    · show Function.update _ _ _ _ = _
      rw [Function.update_self]
    · show Function.update _ _ _ _ = _
      rw [Function.update_self]

/-- The walk of **visit** takes out the first element that passes. -/
theorem visitFrom {k : H} (judge : T → Bool) :
    ∀ (fuel : ℕ) (ys : List T) (a : T ⊕ H), l.Seg a ys (.inr k) → ys.length < fuel →
      (Links.visitFrom k judge l fuel (l.next a) = some (none, l) ∧ ∀ x ∈ ys, judge x = false) ∨
        ∃ us t vs, ys = us ++ t :: vs ∧ (∀ x ∈ us, judge x = false) ∧ judge t = true ∧
          Links.visitFrom k judge l fuel (l.next a) = some (some t, Links.delNode (.inl t) l) := by
  intro fuel
  induction fuel with
  | zero => intro ys a _ hlt; omega
  | succ fuel ih =>
    intro ys a hseg hlt
    cases ys with
    | nil =>
      left
      rw [hseg.next_nil, Links.visitFrom, if_pos rfl]
      exact ⟨rfl, by simp⟩
    | cons y ys =>
      rw [hseg.next_cons, Links.visitFrom]
      by_cases hy : judge y
      · right
        exact ⟨[], y, ys, rfl, by simp, hy, by rw [if_pos hy]⟩
      · rw [if_neg hy]
        rw [Bool.not_eq_true] at hy
        rcases ih ys (.inl y) hseg.2 (by simpa using hlt) with ⟨h1, h2⟩ | ⟨us, t, vs, h1, h2, h3, h4⟩
        · exact Or.inl ⟨h1, by simpa [hy] using h2⟩
        · exact Or.inr ⟨y :: us, t, vs, by simp [h1], by simpa [hy] using h2, h3, h4⟩

/-- The walk of **is_in_queue** decides membership. -/
theorem isInFrom {k : H} {t : T} :
    ∀ (fuel : ℕ) (ys : List T) (a : T ⊕ H), l.Seg a ys (.inr k) → ys.length < fuel →
      Links.isInFrom (.inl t) (.inr k) l fuel (l.next a) = some (decide (t ∈ ys)) := by
  intro fuel
  induction fuel with
  | zero => intro ys a _ hlt; omega
  | succ fuel ih =>
    intro ys a hseg hlt
    cases ys with
    | nil => rw [hseg.next_nil, Links.isInFrom, if_pos rfl]; rfl
    | cons y ys =>
      rw [hseg.next_cons, Links.isInFrom, if_neg (by simp)]
      by_cases hy : t = y
      · rw [if_pos (by rw [hy])]; simp [hy]
      · rw [if_neg (by simpa using hy), ih ys (.inl y) hseg.2 (by simpa using hlt)]
        simp [hy]

end Rings

end RiscvKernel.Lib
