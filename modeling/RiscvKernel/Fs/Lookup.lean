import RiscvKernel.Fs.Effect

/-!
# Looking up paths in any state

The lookups change nothing but the first page of `TEMP_BUF` (`Quiet`), and what they find does not
depend on it, whatever is on the disk. So the order in which lookups are made does not matter, and
the result of the path split can be compared with that of `find_inode_by_path` component by
component.
-/

namespace RiscvKernel.Fs

open Lib

/-! ## Lookups are quiet -/

/-- At most the first page of `TEMP_BUF` changes. -/
def Quiet (s s' : State) : Prop := ∃ t, s' = s.put s.disk t ∧ ∀ i, 4096 ≤ i → t i = s.temp i

theorem Quiet.refl (s : State) : Quiet s s := ⟨s.temp, rfl, fun _ _ => rfl⟩

theorem Quiet.symm {s s' : State} (h : Quiet s s') : Quiet s' s := by
  obtain ⟨t, rfl, ht⟩ := h
  exact ⟨s.temp, rfl, fun i hi => (ht i hi).symm⟩

theorem Quiet.trans {s s' s'' : State} (h : Quiet s s') (h' : Quiet s' s'') : Quiet s s'' := by
  obtain ⟨t, rfl, ht⟩ := h
  obtain ⟨t', rfl, ht'⟩ := h'
  exact ⟨t', rfl, fun i hi => (ht' i hi).trans (ht i hi)⟩

theorem Quiet.disk {s s' : State} (h : Quiet s s') : s'.disk = s.disk := by
  obtain ⟨t, rfl, -⟩ := h
  rfl

theorem Quiet.dirInode {s s' : State} (h : Quiet s s') : s'.dirInode = s.dirInode := by
  obtain ⟨t, rfl, -⟩ := h
  rfl

theorem quiet_readBlock (s : State) (b : ℕ) : Quiet s (readBlock s b 0) :=
  ⟨_, rfl, fun i hi => blit_out (Or.inr (by simpa using hi))⟩

/-- A block read to `TEMP_BUF` covers what was there. -/
theorem Quiet.readBlock {s s' : State} (h : Quiet s s') (b : ℕ) :
    readBlock s' b 0 = readBlock s b 0 := by
  obtain ⟨t, rfl, ht⟩ := h
  unfold Fs.readBlock State.put
  congr 1
  funext i
  by_cases hi : i < 4096
  · rw [blit_in_of_le (by omega) (by simp only [blockSize]; omega),
      blit_in_of_le (by omega) (by simp only [blockSize]; omega)]
  · rw [blit_out (Or.inr (by simp only [blockSize]; omega)),
      blit_out (Or.inr (by simp only [blockSize]; omega))]
    exact ht i (by omega)

theorem quiet_indexEntry (s : State) (b k : ℕ) : Quiet s (indexEntry s b k false).2 := by
  unfold indexEntry
  simp only [Bool.false_eq_true, and_false, if_false]
  exact quiet_readBlock s b

theorem Quiet.indexEntry {s s' : State} (h : Quiet s s') (b k : ℕ) :
    Fs.indexEntry s' b k false = Fs.indexEntry s b k false := by
  unfold Fs.indexEntry
  rw [h.readBlock]

theorem quiet_doubleEntry (s : State) (b i j : ℕ) : Quiet s (doubleEntry s b i j false).2 := by
  unfold doubleEntry
  simp only [Bool.false_eq_true, if_false]
  split_ifs
  · exact quiet_readBlock s b
  · exact (quiet_readBlock s b).trans (quiet_indexEntry _ _ _)

theorem Quiet.doubleEntry {s s' : State} (h : Quiet s s') (b i j : ℕ) :
    Fs.doubleEntry s' b i j false = Fs.doubleEntry s b i j false := by
  unfold Fs.doubleEntry
  rw [h.readBlock]

theorem quiet_getPhysicalBlockId (s : State) (node : Inode) (n l : ℕ) :
    (getPhysicalBlockId s node n l false).2.1 = node ∧
      Quiet s (getPhysicalBlockId s node n l false).2.2 := by
  unfold getPhysicalBlockId
  simp only [Bool.false_eq_true, and_false, if_false]
  split_ifs
  · exact ⟨rfl, Quiet.refl s⟩
  · exact ⟨rfl, Quiet.refl s⟩
  · exact ⟨rfl, quiet_indexEntry _ _ _⟩
  · exact ⟨rfl, Quiet.refl s⟩
  · exact ⟨rfl, quiet_doubleEntry _ _ _ _⟩
  · exact ⟨rfl, Quiet.refl s⟩

theorem Quiet.getPhysicalBlockId {s s' : State} (h : Quiet s s') (node : Inode) (n l : ℕ) :
    (Fs.getPhysicalBlockId s' node n l false).1 = (Fs.getPhysicalBlockId s node n l false).1 := by
  unfold Fs.getPhysicalBlockId
  simp only [Bool.false_eq_true, and_false, if_false]
  split_ifs
  · rfl
  · rfl
  · rw [h.indexEntry]
  · rfl
  · rw [h.doubleEntry]
  · rfl

/-- The search in a directory is quiet, and it finds the same after a quiet call; when it finds an
entry, the directory block is in `TEMP_BUF`. -/
theorem quiet_searchDentry (p : Mem → ℕ → Bool) (n : ℕ) (node : Inode) :
    ∀ (k i : ℕ) (s s' : State), Quiet s s' →
      Quiet s (searchDentry p n i k node s).2.2 ∧
      (searchDentry p n i k node s').1 = (searchDentry p n i k node s).1 ∧
      ((searchDentry p n i k node s).1 ≠ none →
        (searchDentry p n i k node s').2.2 = (searchDentry p n i k node s).2.2) := by
  intro k
  induction k with
  | zero =>
    intro i s s' _
    exact ⟨Quiet.refl s, rfl, fun h => absurd rfl h⟩
  | succ k ih =>
    intro i s s' h
    obtain ⟨e1, q1⟩ := quiet_getPhysicalBlockId s node n i
    obtain ⟨e2, q2⟩ := quiet_getPhysicalBlockId s' node n i
    have hb := h.getPhysicalBlockId node n i
    have hq := (q1.symm.trans h).trans q2
    rw [searchDentry, searchDentry]
    generalize getPhysicalBlockId s node n i false = r at e1 q1 hb hq ⊢
    generalize getPhysicalBlockId s' node n i false = r' at e2 q2 hb hq ⊢
    obtain ⟨b, node1, s1⟩ := r
    obtain ⟨b', node2, s2⟩ := r'
    obtain rfl : node1 = node := e1
    obtain rfl : node2 = node1 := e2
    obtain rfl : b' = b := hb
    dsimp only at q1 q2 hq ⊢
    split_ifs
    · obtain ⟨h1, h2, h3⟩ := ih (i + 1) s1 s2 hq
      exact ⟨q1.trans h1, h2, h3⟩
    · rw [hq.readBlock]
      have hr := q1.trans (quiet_readBlock s1 b')
      cases findDentry (p (Fs.readBlock s1 b' 0).temp) with
      | some j => exact ⟨hr, rfl, fun _ => rfl⟩
      | none => exact ⟨hr.trans (ih _ _ _ (Quiet.refl _)).1, rfl, fun _ => rfl⟩

theorem Quiet.getInode {s s' : State} (h : Quiet s s') (n : ℕ) :
    Fs.getInode s' n = Fs.getInode s n := by
  obtain ⟨t, rfl, -⟩ := h
  rfl

theorem quiet_findInodeByName (s : State) (n : ℕ) (x : CStr) :
    Quiet s (findInodeByName s n x).2 := by
  unfold findInodeByName
  dsimp only
  split_ifs
  · exact Quiet.refl s
  · obtain ⟨h1, -⟩ := quiet_searchDentry (fun t => hasName t x) n (getInode s n)
      (numBlocks (getInode s n)) 0 s s (Quiet.refl s)
    revert h1
    rcases searchDentry _ n 0 _ _ s with ⟨_ | ⟨b, j⟩, node, s1⟩
    · exact id
    · exact id

theorem Quiet.findInodeByName {s s' : State} (h : Quiet s s') (n : ℕ) (x : CStr) :
    (Fs.findInodeByName s' n x).1 = (Fs.findInodeByName s n x).1 := by
  unfold Fs.findInodeByName
  dsimp only
  rw [h.getInode]
  split_ifs
  · rfl
  · obtain ⟨-, h2, h3⟩ := quiet_searchDentry (fun t => hasName t x) n (Fs.getInode s n)
      (numBlocks (Fs.getInode s n)) 0 s s' h
    revert h2 h3
    rcases searchDentry _ n 0 _ _ s with ⟨_ | ⟨b, j⟩, node, s1⟩
    · rcases searchDentry _ n 0 _ _ s' with ⟨_ | ⟨b', j'⟩, node', s1'⟩
      · exact fun _ _ => rfl
      · exact fun h2 => by cases h2
    · rcases searchDentry _ n 0 _ _ s' with ⟨_ | ⟨b', j'⟩, node', s1'⟩
      · exact fun h2 => by cases h2
      · intro h2 h3
        cases h2
        obtain rfl : s1' = s1 := h3 (by simp)
        rfl

theorem quiet_walkPath : ∀ (n : ℕ) (s : State) (curr : ℕ) (path : CStr),
    Quiet s (walkPath n s curr path).2 := by
  intro n
  induction n with
  | zero => exact fun s _ _ => Quiet.refl s
  | succ n ih =>
    intro s curr path
    rw [walkPath]
    split_ifs
    · exact Quiet.refl s
    · split
      · next k _ =>
        have h := quiet_findInodeByName s curr (path.take k)
        dsimp only
        split_ifs
        · exact h
        · exact h.trans (ih _ _ _)
      · exact quiet_findInodeByName s curr path

theorem Quiet.walkPath : ∀ (n : ℕ) {s s' : State}, Quiet s s' → ∀ (curr : ℕ) (path : CStr),
    (walkPath n s' curr path).1 = (walkPath n s curr path).1 := by
  intro n
  induction n with
  | zero => exact fun _ _ _ => rfl
  | succ n ih =>
    intro s s' h curr path
    rw [Fs.walkPath, Fs.walkPath]
    split_ifs
    · rfl
    · split
      · next k _ =>
        have e := h.findInodeByName curr (path.take k)
        have hq := ((quiet_findInodeByName s curr (path.take k)).symm.trans h).trans
          (quiet_findInodeByName s' curr (path.take k))
        dsimp only
        rw [e]
        split_ifs
        · rfl
        · exact ih hq _ _
      · exact h.findInodeByName curr path

/-! ## Components -/

/-- The inode that name `x` has in directory `n`. -/
def lookup (s : State) (n : ℕ) (x : CStr) : ℕ := (findInodeByName s n x).1

/-- The inode that path `x` leads to from directory `n`. -/
def resolve (s : State) (n : ℕ) (path : CStr) : ℕ := (walkPath path.length s n path).1

/-- More rounds than bytes change nothing. -/
theorem walkPath_fuel : ∀ (n m : ℕ) (s : State) (curr : ℕ) (path : CStr), path.length ≤ n →
    path.length ≤ m → walkPath n s curr path = walkPath m s curr path := by
  have hnil : ∀ (n : ℕ) (s : State) (curr : ℕ), walkPath n s curr [] = (curr, s) := by
    intro n s curr
    cases n with
    | zero => rfl
    | succ n => rw [walkPath, if_pos rfl]
  intro n
  induction n with
  | zero =>
    intro m s curr path hn _
    obtain rfl := List.length_eq_zero_iff.mp (Nat.le_zero.mp hn)
    rw [hnil, hnil]
  | succ n ih =>
    intro m s curr path hn hm
    by_cases h0 : path = []
    · rw [h0, hnil, hnil]
    cases m with
    | zero => exact absurd (List.length_eq_zero_iff.mp (Nat.le_zero.mp hm)) h0
    | succ m =>
      rw [walkPath, walkPath, if_neg h0, if_neg h0]
      cases strchr slash path with
      | none => rfl
      | some k =>
        dsimp only
        split_ifs
        · rfl
        · exact ih m _ _ _ (by rw [List.length_drop]; omega) (by rw [List.length_drop]; omega)

/-- The last component. -/
theorem resolve_of_notMem {s : State} {n : ℕ} {x : CStr} (h0 : x ≠ []) (hx : slash ∉ x) :
    resolve s n x = lookup s n x := by
  unfold resolve
  obtain ⟨k, hk⟩ : ∃ k, x.length = k + 1 :=
    Nat.exists_eq_succ_of_ne_zero fun e => h0 (List.length_eq_zero_iff.mp e)
  rw [hk, walkPath, if_neg h0, strchr_eq_none hx]
  rfl

/-- A component before a slash. -/
theorem resolve_append {s : State} {n : ℕ} {x path : CStr} (hx : slash ∉ x) :
    resolve s n (x ++ slash :: path) =
      if lookup s n x = neg1 then neg1 else resolve s (lookup s n x) path := by
  unfold resolve
  rw [show (x ++ slash :: path).length = (x ++ path).length + 1 by simp; omega, walkPath,
    if_neg (by simp), strchr_append hx]
  dsimp only
  rw [List.take_left, show (x ++ slash :: path).drop (x.length + 1) = path by simp]
  by_cases hl : lookup s n x = neg1
  · rw [if_pos hl, if_pos (show (findInodeByName s n x).1 = neg1 from hl)]
  · rw [if_neg hl, if_neg (show ¬ (findInodeByName s n x).1 = neg1 from hl), walkPath_fuel _ path.length _ _ _ (by simp) le_rfl]
    exact (quiet_findInodeByName s n x).walkPath _ _ _

theorem searchDentry_false (n : ℕ) {p : Mem → ℕ → Bool} (hp : ∀ t a, p t a = false) :
    ∀ (k i : ℕ) (node : Inode) (s : State), (searchDentry p n i k node s).1 = none := by
  intro k
  induction k with
  | zero => exact fun _ _ _ => rfl
  | succ k ih =>
    intro i node s
    have hd : ∀ t, findDentry (p t) = none := fun t => by
      unfold findDentry
      rw [scan_eq_none]
      intro j _ _
      rw [hp, if_neg (by decide)]
    rw [searchDentry]
    dsimp only
    split_ifs
    · exact ih _ _ _
    · rw [hd]
      exact ih _ _ _

/-- There is no empty name. -/
theorem lookup_nil (s : State) (n : ℕ) : lookup s n [] = neg1 := by
  unfold lookup findInodeByName
  dsimp only
  split_ifs
  · rfl
  · have hn : ∀ (t : Mem) (a : ℕ), hasName t [] a = false := fun t a => by
      unfold hasName
      rw [decide_eq_false_iff_not]
      rintro ⟨h1, h2⟩
      exact h1 (BitVec.eq_of_toNat_eq (Int.natCast_eq_zero.mp h2))
    have := searchDentry_false n hn (numBlocks (getInode s n)) 0 (getInode s n) s
    revert this
    rcases searchDentry _ n 0 _ _ s with ⟨_ | ⟨b, j⟩, node, s1⟩
    · exact fun _ => rfl
    · exact fun h => by cases h

/-- A path that does not end in a slash, and a component behind it. -/
theorem resolve_snoc {s : State} {x : CStr} (a : CStr) (n : ℕ) (h0 : a ≠ [])
    (hs : ∀ a', a ≠ a' ++ [slash]) : resolve s n (a ++ slash :: x) =
      if resolve s n a = neg1 then neg1 else resolve s (resolve s n a) x := by
  -- the induction takes off the first component
  induction hk : a.length using Nat.strong_induction_on generalizing a n with
  | _ k ih =>
    rcases eq_or_first_split slash a with ha | ⟨b, c, rfl, hb⟩
    · rw [resolve_append ha, resolve_of_notMem h0 ha]
    · have hc0 : c ≠ [] := by
        rintro rfl
        exact hs b rfl
      rw [List.append_assoc, List.cons_append, resolve_append hb, resolve_append hb]
      by_cases hl : lookup s n b = neg1
      · rw [if_pos hl, if_pos hl, if_pos rfl]
      · rw [if_neg hl, if_neg hl]
        refine ih c.length ?_ c _ hc0 (fun a' e => hs (b ++ slash :: a') (by rw [e]; simp)) rfl
        rw [← hk, List.length_append, List.length_cons]
        omega

/-- A path that ends in a slash, and a component behind it. -/
theorem resolve_slash {s : State} {x : CStr} (a : CStr) (n : ℕ) :
    resolve s n (a ++ slash :: slash :: x) = neg1 := by
  have hnil : ∀ m, resolve s m (slash :: x) = neg1 := fun m => by
    rw [show slash :: x = [] ++ slash :: x from rfl, resolve_append (by simp), lookup_nil,
      if_pos rfl]
  induction hk : a.length using Nat.strong_induction_on generalizing a n with
  | _ k ih =>
    rcases eq_or_first_split slash a with ha | ⟨b, c, rfl, hb⟩
    · rw [resolve_append ha, hnil, ite_self]
    · rw [List.append_assoc, List.cons_append, resolve_append hb,
        ih c.length (by rw [← hk, List.length_append, List.length_cons]; omega) c _ rfl, ite_self]

/-! ## The two path resolvers -/

/-- Where `find_inode_by_path` starts, and the rest of the path. -/
theorem findInodeByPath_eq (s : State) (path : CStr) : (findInodeByPath s path).1 =
    if path.head? = some slash then resolve s rootInodeNum path.tail
    else resolve s s.dirInode path := by
  unfold findInodeByPath resolve
  split_ifs
  · rw [walkPath_fuel _ path.tail.length _ _ _ (by simp) le_rfl]
  · rfl

theorem quiet_findInodeByPath (s : State) (path : CStr) : Quiet s (findInodeByPath s path).2 := by
  unfold findInodeByPath
  split_ifs
  · exact quiet_walkPath _ _ _ _
  · exact quiet_walkPath _ _ _ _

/-- What the operations find that cut the path at its last slash: the last component in the parent
directory, -1 when there is no parent. -/
def findInParent (s : State) (path : CStr) : ℕ :=
  let (parent, name, s) := splitParent s path
  if parent = neg1 then neg1 else (findInodeByName s parent name).1

theorem findInParent_none {s : State} (hd : s.dirInode ≠ neg1) {path : CStr} (h : slash ∉ path) :
    findInParent s path = lookup s s.dirInode path := by
  unfold findInParent splitParent
  rw [strrchr_eq_none h]
  exact if_neg hd

theorem findInParent_append {s : State} {a x : CStr} (h : slash ∉ x) :
    findInParent s (a ++ slash :: x) =
      if (findInodeByPath s a).1 = neg1 then neg1 else lookup s (findInodeByPath s a).1 x := by
  unfold findInParent splitParent
  rw [strrchr_append h]
  dsimp only
  rw [List.take_left, show (a ++ slash :: x).drop (a.length + 1) = x by simp,
    (quiet_findInodeByPath s a).findInodeByName]
  rfl

theorem lastName_append {a x : CStr} (h : slash ∉ x) : lastName (a ++ slash :: x) = x := by
  unfold lastName
  rw [strrchr_append h]
  simp

/-- The condition under which the two resolvers agree: the path is not `/x` with a name `x` that
the root directory and the working directory have for different objects, and there is no `//` before
the last component unless that component does not exist. -/
def SplitOk (s : State) (path : CStr) : Prop :=
  (path = slash :: lastName path →
    lookup s s.dirInode (lastName path) = lookup s rootInodeNum (lastName path)) ∧
  ∀ a, path = a ++ slash :: slash :: lastName path →
    (findInodeByPath s (a ++ [slash])).1 = neg1 ∨
      lookup s (findInodeByPath s (a ++ [slash])).1 (lastName path) = neg1

/-- Behind `//` nothing is found. -/
theorem findInodeByPath_slash_slash (s : State) (a x : CStr) :
    (findInodeByPath s (a ++ slash :: slash :: x)).1 = neg1 := by
  rw [findInodeByPath_eq]
  split_ifs
  · cases a with
    | nil =>
      show resolve s rootInodeNum ([] ++ slash :: x) = neg1
      rw [resolve_append (by simp), lookup_nil, if_pos rfl]
    | cons b a => exact resolve_slash a _
  · exact resolve_slash a _

/-- A component behind a path that ends in a component. -/
theorem findInodeByPath_snoc {s : State} {a x : CStr} (h0 : a ≠ []) (hs : ∀ a', a ≠ a' ++ [slash])
    (hx : x ≠ []) (hxs : slash ∉ x) : (findInodeByPath s (a ++ slash :: x)).1 =
      if (findInodeByPath s a).1 = neg1 then neg1 else lookup s (findInodeByPath s a).1 x := by
  obtain ⟨b, a, rfl⟩ := List.exists_cons_of_ne_nil h0
  rw [findInodeByPath_eq, findInodeByPath_eq]
  show (if some b = some slash then resolve s rootInodeNum (a ++ slash :: x)
    else resolve s s.dirInode (b :: a ++ slash :: x)) = _
  by_cases hb : b = slash
  · subst hb
    have ha : a ≠ [] := by
      rintro rfl
      exact hs [] rfl
    simp only [List.head?_cons, if_true, List.tail_cons]
    rw [resolve_snoc a _ ha fun a' e => hs (slash :: a') (by rw [e]; rfl), resolve_of_notMem hx hxs]
  · simp only [List.head?_cons, Option.some.injEq, hb, if_false]
    rw [resolve_snoc _ _ h0 hs, resolve_of_notMem hx hxs]

/-- The path split of the operations and `find_inode_by_path` agree on a path exactly when it meets
`SplitOk`. -/
theorem resolvers_agree_iff {s : State} (hd : s.dirInode ≠ neg1) {path : CStr}
    (hx : lastName path ≠ []) :
    findInParent s path = (findInodeByPath s path).1 ↔ SplitOk s path := by
  rcases eq_or_last_split slash path with hp | ⟨a, x, rfl, hs⟩
  · -- no slash at all
    have hx' : path ≠ [] := fun e => hx (by rw [e]; rfl)
    have hh : path.head? ≠ some slash := fun e => hp (List.mem_of_mem_head? e)
    rw [findInParent_none hd hp, findInodeByPath_eq, if_neg hh, resolve_of_notMem hx' hp]
    refine iff_of_true rfl ⟨fun e => ?_, fun a e => ?_⟩
    · exact absurd (by rw [e]; simp) hp
    · exact absurd (by rw [e]; simp) hp
  unfold SplitOk
  rw [lastName_append hs] at hx ⊢
  rw [findInParent_append hs]
  by_cases ha : a = []
  · -- the parent of `/x` is taken to be the working directory
    subst ha
    have hroot : (findInodeByPath s ([] ++ slash :: x)).1 = lookup s rootInodeNum x := by
      rw [findInodeByPath_eq]
      exact (if_pos rfl).trans (resolve_of_notMem hx hs)
    rw [hroot, show (findInodeByPath s []).1 = s.dirInode from rfl, if_neg hd]
    refine ⟨fun e => ⟨fun _ => e, fun a e' => ?_⟩, fun h => h.1 rfl⟩
    have := congrArg List.length e'
    simp only [List.nil_append, List.length_append, List.length_cons] at this
    omega
  by_cases he : ∃ a', a = a' ++ [slash]
  · obtain ⟨a', rfl⟩ := he
    rw [List.append_assoc, List.singleton_append, findInodeByPath_slash_slash]
    constructor
    · refine fun e => ⟨fun e' => ?_, fun b e' => ?_⟩
      · have := congrArg List.length e'
        simp only [List.length_append, List.length_cons] at this
        omega
      · obtain rfl : a' = b := List.append_cancel_right e'
        split_ifs at e with h1
        · exact Or.inl h1
        · exact Or.inr e
    · rintro ⟨-, h⟩
      rcases h a' rfl with h1 | h1
      · rw [if_pos h1]
      · rw [h1, ite_self]
  · rw [findInodeByPath_snoc ha (fun a' e => he ⟨a', e⟩) hx hs]
    refine iff_of_true rfl ⟨fun e => ?_, fun b e => ?_⟩
    · exact absurd (List.append_left_eq_self.mp e) ha
    · refine absurd ⟨b, ?_⟩ he
      rw [show b ++ slash :: slash :: x = (b ++ [slash]) ++ slash :: x by simp] at e
      exact List.append_cancel_right e

/-- Process 0 works in a directory `a` with a file `x`. -/
def workRun : List Call :=
  [.fs 0 (fun _ => 0#8) (.mkdir [97#8]), .fs 0 (fun _ => 0#8) (.cd [97#8]),
    .fs 0 (fun _ => 0#8) (.touch [120#8])]

theorem resolvers_agree_iff_workRun :
    ((Lib.Run.run Sys.step boot workRun).load 0 fun _ => 0#8).dirInode ≠ neg1 ∧
      (findInParent ((Lib.Run.run Sys.step boot workRun).load 0 fun _ => 0#8) [120#8] =
        (findInodeByPath ((Lib.Run.run Sys.step boot workRun).load 0 fun _ => 0#8) [120#8]).1 ↔
      SplitOk ((Lib.Run.run Sys.step boot workRun).load 0 fun _ => 0#8) [120#8]) := by
  have hd : ((Lib.Run.run Sys.step boot workRun).load 0 fun _ => 0#8).dirInode ≠ neg1 := by
    decide +kernel
  exact ⟨hd, resolvers_agree_iff hd (by decide)⟩

/-- The split of `/x` finds the file `x` of the working directory; `find_inode_by_path` looks into
the root directory, where there is none. -/
theorem resolvers_differ :
    findInParent ((Lib.Run.run Sys.step boot workRun).load 0 fun _ => 0#8) [slash, 120#8] = 2 ∧
      (findInodeByPath ((Lib.Run.run Sys.step boot workRun).load 0 fun _ => 0#8)
        [slash, 120#8]).1 = neg1 := by
  decide +kernel

end RiscvKernel.Fs
