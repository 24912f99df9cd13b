import RiscvKernel.Lib.SortedRing

/-!
# The list of the kernel

The functions of `kernel/list/list.c` over a memory of list nodes. Lists and their elements are nodes of
the same type there; `Lists m heads q` says that every node in `heads` is the head of a circular list
with the contents `q`. The functions do to the memory what the operations on sequences do to `q`
(`lists_refine`).

For the proofs the memory is seen as the `links` of typed nodes, on which the library of rings has the
same operations.
-/

namespace RiscvKernel.CList

open Lib

universe u

variable {A : Type u}

/-! ## The functions -/

/-- `list_node_t`. -/
structure Node (A : Type u) where
  next : A
  prev : A

/-- The list nodes at the addresses `A`. -/
abbrev Heap (A : Type u) := A → Node A

section Functions

variable [DecidableEq A]

/-- `a->next = b`. -/
def setNext (a b : A) (m : Heap A) : Heap A := Function.update m a { m a with next := b }

/-- `a->prev = b`. -/
def setPrev (a b : A) (m : Heap A) : Heap A := Function.update m a { m a with prev := b }

/-- `init_queue`. -/
def initQueue (head : A) (m : Heap A) : Heap A := m |> setPrev head head |> setNext head head

/-- `is_empty_queue`. -/
def isEmptyQueue (head : A) (m : Heap A) : Bool := (m head).next = head || (m head).prev = head

/-- `enqueue`. -/
def enqueue (node head : A) (m : Heap A) : Heap A :=
  let rear := (m head).prev
  m |> setNext node head |> setPrev node rear |> setNext rear node |> setPrev head node

/-- `dequeue`. -/
def dequeue (head : A) (m : Heap A) : Option A × Heap A :=
  if isEmptyQueue head m then (none, m)
  else
    let front := (m head).next
    let m := setNext head (m front).next m
    let m := setPrev (m front).next head m
    (some front, m |> setPrev front front |> setNext front front)

/-- `del_node`. -/
def delNode (node : A) (m : Heap A) : Heap A :=
  let prev := (m node).prev
  let next := (m node).next
  m |> setNext prev next |> setPrev next prev |> setNext node node |> setPrev node node

/-- The loop of `visit`; like the other loops it gives `none` when it has not ended after `n` rounds. -/
def visitFrom (head : A) (judge : A → Bool) (m : Heap A) : ℕ → A → Option (Option A × Heap A)
  | 0, _ => none
  | n + 1, next =>
    if next ≠ head then
      if judge next then some (some next, delNode next m)
      else visitFrom head judge m n (m next).next
    else some (none, m)

/-- `visit`. -/
def visit (n : ℕ) (head : A) (judge : A → Bool) (m : Heap A) : Option (Option A × Heap A) :=
  visitFrom head judge m n (m head).next

/-- The loop of `visit_without_delete`. -/
def visitWithoutDeleteFrom (head : A) (judge : A → Bool) (m : Heap A) : ℕ → A → Option (Option A)
  | 0, _ => none
  | n + 1, next =>
    if next ≠ head then
      if judge next then some (some next) else visitWithoutDeleteFrom head judge m n (m next).next
    else some none

/-- `visit_without_delete`. -/
def visitWithoutDelete (n : ℕ) (head : A) (judge : A → Bool) (m : Heap A) : Option (Option A) :=
  visitWithoutDeleteFrom head judge m n (m head).next

/-- The loop of `is_in_queue`. -/
def isInQueueFrom (node head : A) (m : Heap A) : ℕ → A → Option Bool
  | 0, _ => none
  | n + 1, next =>
    if next ≠ head then
      if node = next then some true else isInQueueFrom node head m n (m next).next
    else some false

/-- `is_in_queue`. -/
def isInQueue (n : ℕ) (node head : A) (m : Heap A) : Option Bool :=
  isInQueueFrom node head m n (m head).next

/-- The loop of `list_insert`. -/
def insertPosFrom (node head : A) (comp : A → A → ℤ) (m : Heap A) : ℕ → A → Option A
  | 0, _ => none
  | n + 1, pos =>
    if pos ≠ head then
      if comp node pos ≤ 0 then some pos else insertPosFrom node head comp m n (m pos).next
    else some pos

/-- `list_insert` behind its loop. -/
def insertBefore (node pos : A) (m : Heap A) : Heap A :=
  let prev := (m pos).prev
  m |> setPrev pos node |> setNext prev node |> setPrev node prev |> setNext node pos

/-- `list_insert`. -/
def listInsert (n : ℕ) (node head : A) (comp : A → A → ℤ) (m : Heap A) : Option (Heap A) :=
  (insertPosFrom node head comp m n (m head).next).map fun pos => insertBefore node pos m

end Functions

/-! ## Lists and sequences -/

/-- The nodes from `a` to `b` are `xs`. -/
def Chain (m : Heap A) : A → List A → A → Prop
  | a, [], b => (m a).next = b ∧ (m b).prev = a
  | a, x :: xs, b => ((m a).next = x ∧ (m x).prev = a) ∧ Chain m x xs b

/-- The memory holds a circular list with the contents `q h` for every head `h`, and no node is in two
lists. -/
structure Lists (m : Heap A) (heads : Set A) (q : A → List A) : Prop where
  chain : ∀ h ∈ heads, Chain m h (q h) h
  nodup : ∀ h ∈ heads, (q h).Nodup
  node : ∀ h ∈ heads, ∀ x ∈ q h, x ∉ heads
  disj : ∀ h ∈ heads, ∀ h' ∈ heads, ∀ x, x ∈ q h → x ∈ q h' → h = h'

/-- The node is neither a head nor in a list. -/
def Unlinked (heads : Set A) (q : A → List A) (node : A) : Prop :=
  node ∉ heads ∧ ∀ h ∈ heads, node ∉ q h

/-- The node points to itself. -/
def SelfLinked (m : Heap A) (node : A) : Prop := (m node).next = node ∧ (m node).prev = node

/-- The comparison orders the nodes, up to those that compare equal. -/
structure TotalOrder (comp : A → A → ℤ) : Prop where
  total : ∀ a b, comp a b ≤ 0 ∨ comp b a ≤ 0
  trans : ∀ a b c, comp a b ≤ 0 → comp b c ≤ 0 → comp a c ≤ 0

/-- What the functions do to the list of `head`, with those of the other heads unchanged. -/
structure Refines [DecidableEq A] (m : Heap A) (heads : Set A) (q : A → List A) (head : A) : Prop where
  initQueue : ∀ node, Unlinked heads q node →
    Lists (initQueue node m) (insert node heads) (Function.update q node [])
  isEmptyQueue : isEmptyQueue head m = (q head).isEmpty
  enqueue : ∀ node, Unlinked heads q node →
    Lists (enqueue node head m) heads (Function.update q head (q head ++ [node]))
  dequeue_nil : q head = [] → dequeue head m = (none, m)
  dequeue_cons : ∀ x xs, q head = x :: xs → ∃ m', dequeue head m = (some x, m') ∧
    Lists m' heads (Function.update q head xs) ∧ SelfLinked m' x
  delNode : ∀ x ∈ q head,
    Lists (delNode x m) heads (Function.update q head ((q head).erase x)) ∧ SelfLinked (delNode x m) x
  visit : ∀ judge n, (q head).length < n → visit n head judge m = some
    (match (q head).find? judge with
      | some x => (some x, CList.delNode x m)
      | none => (none, m))
  visitWithoutDelete : ∀ judge n, (q head).length < n →
    visitWithoutDelete n head judge m = some ((q head).find? judge)
  isInQueue : ∀ x n, (q head).length < n → isInQueue n x head m = some (decide (x ∈ q head))
  listInsert : ∀ comp, TotalOrder comp → (q head).Pairwise (fun a b => comp a b ≤ 0) →
    ∀ node, Unlinked heads q node → ∀ n, (q head).length < n →
    ∃ m' xs ys, listInsert n node head comp m = some m' ∧ q head = xs ++ ys ∧
      Lists m' heads (Function.update q head (xs ++ node :: ys)) ∧
      (xs ++ node :: ys).Pairwise fun a b => comp a b ≤ 0

/-! ## Typed nodes -/

section Typed

variable (heads : Set A)

/-- The nodes that are not heads. -/
abbrev Elem := {a : A // a ∉ heads}

/-- The heads. -/
abbrev Head := {a : A // a ∈ heads}

open Classical in
/-- A node is an element or a head. -/
noncomputable def split : A ≃ Elem heads ⊕ Head heads :=
  ((Equiv.sumComm _ _).trans (Equiv.sumCompl (· ∈ heads))).symm

/-- The memory as pointers between typed nodes. -/
noncomputable def links (m : Heap A) : Links (Elem heads) (Head heads) where
  next n := split heads (m ((split heads).symm n)).next
  prev n := split heads (m ((split heads).symm n)).prev

variable {heads} {m : Heap A} {a b : A} {q : A → List A}

theorem split_elem (x : Elem heads) : split heads x = .inl x := by
  apply (split heads).symm.injective
  rw [Equiv.symm_apply_apply]
  rfl

theorem split_head (h : Head heads) : split heads h = .inr h := by
  apply (split heads).symm.injective
  rw [Equiv.symm_apply_apply]
  rfl

theorem links_next : (links heads m).next (split heads a) = split heads (m a).next := by
  show split heads (m ((split heads).symm (split heads a))).next = _
  rw [Equiv.symm_apply_apply]

theorem links_prev : (links heads m).prev (split heads a) = split heads (m a).prev := by
  show split heads (m ((split heads).symm (split heads a))).prev = _
  rw [Equiv.symm_apply_apply]

/-- A segment of typed nodes is a chain. -/
theorem seg_iff {xs : List (Elem heads)} :
    (links heads m).Seg (split heads a) xs (split heads b) ↔ Chain m a (xs.map (↑)) b := by
  induction xs generalizing a with
  | nil =>
    show (links heads m).next _ = _ ∧ (links heads m).prev _ = _ ↔ _
    rw [links_next, links_prev, (split heads).apply_eq_iff_eq, (split heads).apply_eq_iff_eq]
    rfl
  | cons x xs ih =>
    show ((links heads m).next _ = .inl x ∧ (links heads m).prev (.inl x) = _) ∧ _ ↔ _
    rw [← split_elem, ih, links_next, links_prev, (split heads).apply_eq_iff_eq,
      (split heads).apply_eq_iff_eq]
    rfl

/-- The lists of a memory are rings of its typed nodes. -/
theorem Lists.rings (H : Lists m heads q) :
    ∃ q' : Head heads → List (Elem heads), (∀ h, (q' h).map (↑) = q h) ∧ Rings (links heads m) q' := by
  have hex : ∀ h : Head heads, ∃ xs : List (Elem heads), xs.map (↑) = q h := fun h =>
    ⟨(q h).attachWith _ (H.node h h.2), List.attachWith_map_subtype_val _⟩
  choose q' hq' using hex
  refine ⟨q', hq', fun h => ?_, fun h => ?_, fun {h h' t} ht ht' => ?_⟩
  · rw [← split_head, seg_iff, hq']
    exact H.chain h h.2
  · refine List.Nodup.of_map Subtype.val ?_
    rw [hq']
    exact H.nodup h h.2
  · have hm : ∀ h, t ∈ q' h → (t : A) ∈ q h := fun h ht => by
      rw [← hq']
      exact List.mem_map_of_mem ht
    exact Subtype.ext (H.disj h h.2 h' h'.2 t (hm h ht) (hm h' ht'))

/-- Rings of typed nodes are lists. -/
theorem lists_of_rings {q' : Head heads → List (Elem heads)} (hq : ∀ h, (q' h).map (↑) = q h)
    (R : Rings (links heads m) q') : Lists m heads q := by
  have hmem : ∀ h : Head heads, ∀ x ∈ q h, ∃ t ∈ q' h, (t : A) = x := fun h x hx => by
    rw [← hq] at hx
    exact List.mem_map.mp hx
  refine ⟨fun h hh => ?_, fun h hh => ?_, fun h hh x hx => ?_, fun h hh h' hh' x hx hx' => ?_⟩
  · rw [← hq ⟨h, hh⟩, ← seg_iff, split_head ⟨h, hh⟩]
    exact R.seg ⟨h, hh⟩
  · rw [← hq ⟨h, hh⟩]
    exact (R.nodup ⟨h, hh⟩).map Subtype.val_injective
  · obtain ⟨t, -, rfl⟩ := hmem ⟨h, hh⟩ x hx
    exact t.2
  · obtain ⟨t, ht, rfl⟩ := hmem ⟨h, hh⟩ x hx
    obtain ⟨t', ht', he⟩ := hmem ⟨h', hh'⟩ t hx'
    obtain rfl := Subtype.ext he
    exact congrArg Subtype.val (R.disj ht ht')

variable [DecidableEq A]

/-- The lists after a change of the list of `h`. -/
theorem lists_update {m' : Heap A} {q' : Head heads → List (Elem heads)}
    (hq : ∀ h, (q' h).map (↑) = q h) (h : Head heads) {xs : List (Elem heads)}
    (R : Rings (links heads m') (Function.update q' h xs)) :
    Lists m' heads (Function.update q h (xs.map (↑))) := by
  refine lists_of_rings (fun k => ?_) R
  by_cases e : k = h
  · subst e
    rw [Function.update_self, Function.update_self]
  · have hk : (k : A) ≠ h := fun he => e (Subtype.ext he)
    rw [Function.update_of_ne e, Function.update_of_ne hk]
    exact hq k

theorem links_setNext : links heads (setNext a b m) =
    Links.setNext (split heads a) (split heads b) (links heads m) := by
  have hx : ∀ x, (links heads (setNext a b m)).next x =
      Function.update (links heads m).next (split heads a) (split heads b) x ∧
      (links heads (setNext a b m)).prev x = (links heads m).prev x := by
    intro n
    obtain ⟨c, rfl⟩ := (split heads).surjective n
    rw [links_next, links_prev, links_prev]
    by_cases e : c = a
    · subst e
      rw [setNext, Function.update_self, Function.update_self]
      exact ⟨rfl, rfl⟩
    · have he : split heads c ≠ split heads a := fun h => e ((split heads).injective h)
      rw [setNext, Function.update_of_ne e, Function.update_of_ne he, links_next]
      exact ⟨rfl, rfl⟩
  exact congrArg₂ Links.mk (funext fun x => (hx x).1) (funext fun x => (hx x).2)

theorem links_setPrev : links heads (setPrev a b m) =
    Links.setPrev (split heads a) (split heads b) (links heads m) := by
  have hx : ∀ x, (links heads (setPrev a b m)).next x = (links heads m).next x ∧
      (links heads (setPrev a b m)).prev x =
        Function.update (links heads m).prev (split heads a) (split heads b) x := by
    intro n
    obtain ⟨c, rfl⟩ := (split heads).surjective n
    rw [links_next, links_prev, links_next]
    by_cases e : c = a
    · subst e
      rw [setPrev, Function.update_self, Function.update_self]
      exact ⟨rfl, rfl⟩
    · have he : split heads c ≠ split heads a := fun h => e ((split heads).injective h)
      rw [setPrev, Function.update_of_ne e, Function.update_of_ne he, links_prev]
      exact ⟨rfl, rfl⟩
  exact congrArg₂ Links.mk (funext fun x => (hx x).1) (funext fun x => (hx x).2)

/-! ### The operations on typed nodes -/

theorem links_initQueue : links heads (initQueue a m) =
    Links.initQueue (split heads a) (links heads m) := by
  rw [initQueue, links_setNext, links_setPrev]
  rfl

theorem links_enqueue : links heads (enqueue a b m) =
    Links.enqueue (split heads a) (split heads b) (links heads m) := by
  simp only [enqueue, links_setPrev, links_setNext, Links.enqueue, links_prev]

theorem links_delNode : links heads (delNode a m) = Links.delNode (split heads a) (links heads m) := by
  simp only [delNode, links_setPrev, links_setNext, Links.delNode, links_prev, links_next]
  rfl

theorem links_insertBefore : links heads (insertBefore a b m) =
    Links.link (split heads a) (split heads b) (links heads m) := by
  simp only [insertBefore, links_setPrev, links_setNext, Links.link, links_prev]

theorem links_isEmptyQueue :
    Links.isEmptyQueue (split heads a) (links heads m) = isEmptyQueue a m := by
  rw [Links.isEmptyQueue, isEmptyQueue, links_next, links_prev]
  simp only [(split heads).apply_eq_iff_eq]

theorem links_dequeue : Links.dequeue (split heads a) (links heads m) =
    ((dequeue a m).1.map (split heads), links heads (dequeue a m).2) := by
  rw [Links.dequeue, links_isEmptyQueue, dequeue]
  split_ifs
  · rfl
  · simp only [← links_setNext, links_next, Option.map_some]
    simp only [links_setNext, links_setPrev]
    rfl

end Typed

/-! ## What the functions do -/

section

variable [DecidableEq A] {m : Heap A} {heads : Set A} {q : A → List A} {h a x node : A} {xs : List A}
  {n : ℕ} {judge : A → Bool} {comp : A → A → ℤ}

theorem selfLinked_setNext (m : Heap A) (x : A) : SelfLinked (setNext x x (setPrev x x m)) x := by
  rw [SelfLinked, setNext, Function.update_self, setPrev, Function.update_self]
  exact ⟨rfl, rfl⟩

theorem selfLinked_setPrev (m : Heap A) (x : A) : SelfLinked (setPrev x x (setNext x x m)) x := by
  rw [SelfLinked, setPrev, Function.update_self, setNext, Function.update_self]
  exact ⟨rfl, rfl⟩

omit [DecidableEq A] in
theorem Unlinked.notMem_rings {q' : Head heads → List (Elem heads)} (hn : Unlinked heads q node)
    (hq' : ∀ h, (q' h).map (↑) = q h) (k : Head heads) : (⟨node, hn.1⟩ : Elem heads) ∉ q' k := by
  intro hk
  refine hn.2 k k.2 ?_
  rw [← hq']
  exact List.mem_map_of_mem hk

/-- A node that points to itself is an empty list. -/
theorem Lists.newHead (H : Lists m heads q) (hn : Unlinked heads q node) (hs : SelfLinked m node) :
    Lists m (insert node heads) (Function.update q node []) := by
  have hq : ∀ h ∈ insert node heads, Function.update q node [] h = [] ∧ h = node ∨
      Function.update q node [] h = q h ∧ h ∈ heads := by
    intro h hh
    by_cases e : h = node
    · subst e
      exact Or.inl ⟨Function.update_self .., rfl⟩
    · exact Or.inr ⟨Function.update_of_ne e .., hh.resolve_left e⟩
  refine ⟨fun h hh => ?_, fun h hh => ?_, fun h hh x hx => ?_, fun h hh h' hh' x hx hx' => ?_⟩
  · rcases hq h hh with ⟨e, rfl⟩ | ⟨e, hh⟩ <;> rw [e]
    · exact hs
    · exact H.chain h hh
  · rcases hq h hh with ⟨e, -⟩ | ⟨e, hh⟩ <;> rw [e]
    · exact List.nodup_nil
    · exact H.nodup h hh
  · rcases hq h hh with ⟨e, -⟩ | ⟨e, h1⟩ <;> rw [e] at hx
    · cases hx
    · rintro (rfl | hm)
      · exact hn.2 h h1 hx
      · exact H.node h h1 x hx hm
  · rcases hq h hh with ⟨e, -⟩ | ⟨e, hh⟩ <;> rw [e] at hx
    · cases hx
    · rcases hq h' hh' with ⟨e', -⟩ | ⟨e', hh'⟩ <;> rw [e'] at hx'
      · cases hx'
      · exact H.disj h hh h' hh' x hx hx'

theorem Lists.initQueue (H : Lists m heads q) (hn : Unlinked heads q node) :
    Lists (CList.initQueue node m) (insert node heads) (Function.update q node []) := by
  obtain ⟨q', hq', R⟩ := H.rings
  have R1 := R.initQueue_inl (hn.notMem_rings hq')
  rw [← split_elem, ← links_initQueue] at R1
  exact (lists_of_rings hq' R1).newHead hn (selfLinked_setNext _ node)

theorem Lists.isEmptyQueue (H : Lists m heads q) (hh : h ∈ heads) :
    CList.isEmptyQueue h m = (q h).isEmpty := by
  obtain ⟨q', hq', R⟩ := H.rings
  have he : Links.isEmptyQueue (split heads h) (links heads m) = CList.isEmptyQueue h m :=
    links_isEmptyQueue
  rw [← he, split_head ⟨h, hh⟩, R.isEmptyQueue, ← hq' ⟨h, hh⟩]
  exact List.isEmpty_map.symm

theorem Lists.enqueue (H : Lists m heads q) (hh : h ∈ heads) (hn : Unlinked heads q node) :
    Lists (CList.enqueue node h m) heads (Function.update q h (q h ++ [node])) := by
  obtain ⟨q', hq', R⟩ := H.rings
  have R1 := R.enqueue (k := ⟨h, hh⟩) (hn.notMem_rings hq')
  rw [← split_elem, ← split_head, ← links_enqueue] at R1
  have H1 := lists_update hq' ⟨h, hh⟩ R1
  rwa [List.map_append, hq'] at H1

theorem Lists.dequeue_nil (H : Lists m heads q) (hh : h ∈ heads) (hq : q h = []) :
    CList.dequeue h m = (none, m) := by
  rw [CList.dequeue, if_pos]
  rw [H.isEmptyQueue hh, hq]
  rfl

theorem Lists.dequeue_cons (H : Lists m heads q) (hh : h ∈ heads) (hq : q h = x :: xs) :
    ∃ m', CList.dequeue h m = (some x, m') ∧ Lists m' heads (Function.update q h xs) ∧
      SelfLinked m' x := by
  have hne : CList.isEmptyQueue h m = false := by
    rw [H.isEmptyQueue hh, hq]
    rfl
  have hx : (m h).next = x := by
    have hc := H.chain h hh
    rw [hq] at hc
    exact hc.1.1
  have hd : CList.dequeue h m = (some x, (CList.dequeue h m).2) := by
    rw [CList.dequeue, hne, hx]
    rfl
  refine ⟨_, hd, ?_, ?_⟩
  · obtain ⟨q', hq', R⟩ := H.rings
    have hq1 := (hq' ⟨h, hh⟩).trans hq
    obtain ⟨t, ts, h1, rfl, rfl⟩ := List.map_eq_cons_iff.mp hq1
    obtain ⟨l', h2, h3, -⟩ := R.dequeue_cons h1
    rw [← split_head, links_dequeue] at h2
    obtain rfl := (Prod.mk.inj h2).2
    exact lists_update hq' ⟨h, hh⟩ h3
  · rw [CList.dequeue, hne, hx]
    exact selfLinked_setNext _ x

theorem Lists.delNode (H : Lists m heads q) (hh : h ∈ heads) (hx : x ∈ q h) :
    Lists (CList.delNode x m) heads (Function.update q h ((q h).erase x)) ∧
      SelfLinked (CList.delNode x m) x := by
  refine ⟨?_, selfLinked_setPrev _ x⟩
  obtain ⟨q', hq', R⟩ := H.rings
  have hq1 := hq' ⟨h, hh⟩
  rw [← hq1] at hx
  obtain ⟨t, ht, rfl⟩ := List.mem_map.mp hx
  obtain ⟨us, vs, hsplit⟩ := List.append_of_mem ht
  have R1 := R.delNode hsplit
  rw [← split_elem, ← links_delNode] at R1
  have H1 := lists_update hq' ⟨h, hh⟩ R1
  have hnd := H.nodup h hh
  rw [← hq1, hsplit, List.map_append, List.map_cons] at hnd
  have he : (q h).erase t = (us ++ vs).map (↑) := by
    rw [← hq1, hsplit, List.map_append, List.map_cons, List.map_append,
      List.erase_append_right _ fun hm => (List.nodup_middle.mp hnd).notMem (List.mem_append_left _ hm),
      List.erase_cons_head]
  rwa [he]

/-! ### Walks -/

theorem visitFrom_eq (hc : Chain m a xs h) (hx : ∀ x ∈ xs, x ≠ h) (hn : xs.length < n) :
    visitFrom h judge m n (m a).next = some
      (match xs.find? judge with
        | some x => (some x, CList.delNode x m)
        | none => (none, m)) := by
  induction xs generalizing a n with
  | nil =>
    obtain ⟨n, rfl⟩ := Nat.exists_eq_succ_of_ne_zero (by omega : n ≠ 0)
    rw [hc.1, visitFrom, if_neg (not_not.mpr rfl)]
    rfl
  | cons x xs ih =>
    obtain ⟨n, rfl⟩ := Nat.exists_eq_succ_of_ne_zero (by omega : n ≠ 0)
    have ih := ih hc.2 (fun y hy => hx y (List.mem_cons_of_mem _ hy)) (Nat.lt_of_succ_lt_succ hn)
    rw [hc.1.1, visitFrom, if_pos (hx x List.mem_cons_self), ih, List.find?_cons]
    cases judge x <;> rfl

theorem visitWithoutDeleteFrom_eq (hc : Chain m a xs h) (hx : ∀ x ∈ xs, x ≠ h) (hn : xs.length < n) :
    visitWithoutDeleteFrom h judge m n (m a).next = some (xs.find? judge) := by
  induction xs generalizing a n with
  | nil =>
    obtain ⟨n, rfl⟩ := Nat.exists_eq_succ_of_ne_zero (by omega : n ≠ 0)
    rw [hc.1, visitWithoutDeleteFrom, if_neg (not_not.mpr rfl)]
    rfl
  | cons x xs ih =>
    obtain ⟨n, rfl⟩ := Nat.exists_eq_succ_of_ne_zero (by omega : n ≠ 0)
    have ih := ih hc.2 (fun y hy => hx y (List.mem_cons_of_mem _ hy)) (Nat.lt_of_succ_lt_succ hn)
    rw [hc.1.1, visitWithoutDeleteFrom, if_pos (hx x List.mem_cons_self), ih, List.find?_cons]
    cases judge x <;> rfl

theorem isInQueueFrom_eq (hc : Chain m a xs h) (hx : ∀ x ∈ xs, x ≠ h) (hn : xs.length < n) :
    isInQueueFrom node h m n (m a).next = some (decide (node ∈ xs)) := by
  induction xs generalizing a n with
  | nil =>
    obtain ⟨n, rfl⟩ := Nat.exists_eq_succ_of_ne_zero (by omega : n ≠ 0)
    rw [hc.1, isInQueueFrom, if_neg (not_not.mpr rfl)]
    rfl
  | cons x xs ih =>
    obtain ⟨n, rfl⟩ := Nat.exists_eq_succ_of_ne_zero (by omega : n ≠ 0)
    have ih := ih hc.2 (fun y hy => hx y (List.mem_cons_of_mem _ hy)) (Nat.lt_of_succ_lt_succ hn)
    rw [hc.1.1, isInQueueFrom, if_pos (hx x List.mem_cons_self), ih]
    by_cases e : node = x
    · rw [if_pos e]
      simp [e]
    · rw [if_neg e]
      simp [e]

/-- The loop of `list_insert` stops at the first node that may stand behind the new one. -/
theorem insertPosFrom_eq (hc : Chain m a xs h) (hx : ∀ x ∈ xs, x ≠ h) (hn : xs.length < n) :
    insertPosFrom node h comp m n (m a).next =
      some ((xs.dropWhile fun x => ¬ comp node x ≤ 0).headD h) := by
  induction xs generalizing a n with
  | nil =>
    obtain ⟨n, rfl⟩ := Nat.exists_eq_succ_of_ne_zero (by omega : n ≠ 0)
    rw [hc.1, insertPosFrom, if_neg (not_not.mpr rfl)]
    rfl
  | cons x xs ih =>
    obtain ⟨n, rfl⟩ := Nat.exists_eq_succ_of_ne_zero (by omega : n ≠ 0)
    have ih := ih hc.2 (fun y hy => hx y (List.mem_cons_of_mem _ hy)) (Nat.lt_of_succ_lt_succ hn)
    rw [hc.1.1, insertPosFrom, if_pos (hx x List.mem_cons_self), ih, List.dropWhile_cons]
    by_cases e : comp node x ≤ 0
    · rw [if_pos e, if_neg (by simpa using e)]
      rfl
    · rw [if_neg e, if_pos (by simpa using e)]

/-- Linking a node in between two parts of a list. -/
theorem Lists.insertBefore {ys : List A} (H : Lists m heads q) (hh : h ∈ heads) (hq : q h = xs ++ ys)
    (hn : Unlinked heads q node) :
    Lists (CList.insertBefore node (ys.headD h) m) heads
      (Function.update q h (xs ++ node :: ys)) := by
  obtain ⟨q', hq', R⟩ := H.rings
  obtain ⟨us, vs, hsplit, rfl, rfl⟩ := List.map_eq_append_iff.mp ((hq' ⟨h, hh⟩).trans hq)
  have R1 := R.link hsplit (hn.notMem_rings hq')
  have hf : (Links.firstNode (.inr ⟨h, hh⟩) vs : Elem heads ⊕ Head heads) =
      split heads ((vs.map (↑)).headD h) := by
    cases vs with
    | nil => exact (split_head ⟨h, hh⟩).symm
    | cons v vs => exact (split_elem v).symm
  rw [hf, ← split_elem, ← links_insertBefore] at R1
  have H1 := lists_update hq' ⟨h, hh⟩ R1
  rwa [List.map_append] at H1

omit [DecidableEq A] in
/-- A node in its place keeps a list sorted. -/
theorem pairwise_insert (hcomp : TotalOrder comp) (hs : xs.Pairwise fun a b => comp a b ≤ 0) (node : A) :
    (xs.takeWhile (fun x => ¬ comp node x ≤ 0) ++ node :: xs.dropWhile fun x => ¬ comp node x ≤ 0).Pairwise
      fun a b => comp a b ≤ 0 := by
  have : Std.Total fun a b => comp a b ≤ 0 := ⟨hcomp.total⟩
  have : IsTrans A fun a b => comp a b ≤ 0 := ⟨hcomp.trans⟩
  have h := List.Pairwise.orderedInsert node xs hs
  rwa [List.orderedInsert_eq_take_drop] at h

/-- **The functions refine the operations on sequences.** -/
theorem lists_refine (H : Lists m heads q) (hh : h ∈ heads) : Refines m heads q h := by
  have hne : ∀ x ∈ q h, x ≠ h := by
    rintro x hx rfl
    exact H.node x hh x hx hh
  have hc := H.chain h hh
  exact
    { initQueue := fun node hn => H.initQueue hn
      isEmptyQueue := H.isEmptyQueue hh
      enqueue := fun node hn => H.enqueue hh hn
      dequeue_nil := H.dequeue_nil hh
      dequeue_cons := fun x xs hq => H.dequeue_cons hh hq
      delNode := fun x hx => H.delNode hh hx
      visit := fun judge n hn => visitFrom_eq hc hne hn
      visitWithoutDelete := fun judge n hn => visitWithoutDeleteFrom_eq hc hne hn
      isInQueue := fun x n hn => isInQueueFrom_eq hc hne hn
      listInsert := fun comp hcomp hs node hu n hn =>
        ⟨_, _, _, by rw [listInsert, insertPosFrom_eq hc hne hn]; rfl,
          List.takeWhile_append_dropWhile.symm,
          H.insertBefore hh List.takeWhile_append_dropWhile.symm hu, pairwise_insert hcomp hs node⟩ }

end

/-- A list with two nodes and an empty list. -/
def twoLists : Heap ℕ := fun a =>
  if a = 0 then ⟨2, 3⟩ else if a = 2 then ⟨3, 0⟩ else if a = 3 then ⟨0, 2⟩ else ⟨a, a⟩

theorem lists_twoLists : Refines twoLists {0, 1} (fun h => if h = 0 then [2, 3] else []) 0 := by
  refine lists_refine ⟨?_, ?_, ?_, ?_⟩ (Or.inl rfl)
  · rintro h (rfl | rfl)
    · exact ⟨⟨rfl, rfl⟩, ⟨rfl, rfl⟩, rfl, rfl⟩
    · exact ⟨rfl, rfl⟩
  · rintro h (rfl | rfl)
    · decide
    · decide
  · rintro h (rfl | rfl) x hx
    · fin_cases hx <;> simp
    · cases hx
  · rintro h (rfl | rfl) h' (rfl | rfl) x hx hx'
    · rfl
    · cases hx'
    · cases hx
    · rfl

end RiscvKernel.CList
