import Mathlib.Tactic
import Mathlib.Data.Set.Card

/-!
# Name trees

Objects of a type `I` are named by entries: a slot of type `S` belongs to the directory `owner s`
and is free or holds a name and an object. `Inv` is the invariant of such a name space: names are
distinct within a directory, entries refer to live objects, link counts count the entries, the
entries `dot` and `dotdot` are right, and every live object can be reached from the root.

The operations `addFile`, `addDir`, `addLink`, `removeLink` and `removeDir` change one slot (and,
for directories, the slots the directory owns), and each of them keeps the invariant.
-/

namespace RiscvKernel.Lib

variable {I S N : Type*}

/-- What is fixed about a name space. -/
structure Naming (I S N : Type*) where
  owner : S → I
  dot : N
  dotdot : N
  root : I
  ne : dot ≠ dotdot

/-- A name space. -/
@[ext] structure NameTree (I S N : Type*) where
  live : I → Prop
  dir : I → Prop
  links : I → ℕ
  ent : S → Option (N × I)

namespace NameTree

variable (C : Naming I S N) (t : NameTree I S N)

/-- `s` holds an entry for `n` that is not one of the two dots. -/
def Proper (s : S) (n : I) : Prop := ∃ x, t.ent s = some (x, n) ∧ x ≠ C.dot ∧ x ≠ C.dotdot

/-- The entries that refer to `n`. -/
def refs (n : I) : Set S := {s | ∃ x, t.ent s = some (x, n)}

/-- The entries of `n` that hold its subdirectories. -/
def subdirs (n : I) : Set S := {s | C.owner s = n ∧ ∃ m, t.Proper C s m ∧ t.dir m}

/-- The objects reached from the root along proper entries. -/
inductive Reach : I → Prop
  | root : Reach C.root
  | step {s : S} {n : I} : Reach (C.owner s) → t.Proper C s n → Reach n

/-- The invariant of a name space. -/
structure Inv : Prop where
  root_live : t.live C.root
  root_dir : t.dir C.root
  owner_dir : ∀ {s e}, t.ent s = some e → t.live (C.owner s) ∧ t.dir (C.owner s)
  target_live : ∀ {s x n}, t.ent s = some (x, n) → t.live n
  distinct : ∀ {s s' x n n'}, t.ent s = some (x, n) → t.ent s' = some (x, n') →
    C.owner s = C.owner s' → s = s'
  finite : {s | t.ent s ≠ none}.Finite
  file_links : ∀ {n}, t.live n → ¬ t.dir n → t.links n = (t.refs n).ncard
  dir_links : ∀ {n}, t.live n → t.dir n → t.links n = 2 + (t.subdirs C n).ncard
  dot_entry : ∀ {n}, t.live n → t.dir n → ∃ s, C.owner s = n ∧ t.ent s = some (C.dot, n)
  dotdot_entry : ∀ {s n}, t.Proper C s n → t.dir n →
    ∃ u, C.owner u = n ∧ t.ent u = some (C.dotdot, C.owner s)
  dotdot_root : ∃ u, C.owner u = C.root ∧ t.ent u = some (C.dotdot, C.root)
  held_once : ∀ {s s' n}, t.Proper C s n → t.Proper C s' n → t.dir n → s = s'
  root_free : ∀ {s}, ¬ t.Proper C s C.root
  reach : ∀ {n}, t.live n → t.Reach C n

/-! ## Consequences -/

section Facts

variable {C : Naming I S N} {t : NameTree I S N} (h : t.Inv C)

include h

theorem Inv.ent_of_dead {s : S} (hs : ¬ t.live (C.owner s)) : t.ent s = none := by
  cases e : t.ent s with
  | none => rfl
  | some v => exact absurd (h.owner_dir e).1 hs

theorem Inv.not_ref_dead {s : S} {x : N} {n : I} (hn : ¬ t.live n) : t.ent s ≠ some (x, n) :=
  fun e => hn (h.target_live e)

theorem Inv.dot_target {s : S} {n : I} (e : t.ent s = some (C.dot, n)) : n = C.owner s := by
  obtain ⟨h1, h2⟩ := h.owner_dir e
  obtain ⟨u, hu, e'⟩ := h.dot_entry h1 h2
  obtain rfl := h.distinct e e' hu.symm
  rw [e] at e'
  cases e'
  rfl

/-- A live directory other than the root is held by a proper entry. -/
theorem Inv.held {n : I} (hn : t.live n) (hr : n ≠ C.root) : ∃ s, t.Proper C s n := by
  cases h.reach hn with
  | root => exact absurd rfl hr
  | step _ hp => exact ⟨_, hp⟩

theorem Inv.dotdot_exists {n : I} (hn : t.live n) (hd : t.dir n) :
    ∃ u p, C.owner u = n ∧ t.ent u = some (C.dotdot, p) ∧ t.dir p := by
  by_cases hr : n = C.root
  · obtain ⟨u, hu, e⟩ := h.dotdot_root
    exact ⟨u, C.root, by rw [hu, hr], e, h.root_dir⟩
  · obtain ⟨s, hs⟩ := h.held hn hr
    obtain ⟨u, hu, e⟩ := h.dotdot_entry hs hd
    obtain ⟨x, hx, -⟩ := hs
    exact ⟨u, _, hu, e, (h.owner_dir hx).2⟩

theorem Inv.dotdot_dir {s : S} {n : I} (e : t.ent s = some (C.dotdot, n)) : t.dir n := by
  obtain ⟨h1, h2⟩ := h.owner_dir e
  obtain ⟨u, p, hu, e', hp⟩ := h.dotdot_exists h1 h2
  obtain rfl := h.distinct e e' hu.symm
  rw [e] at e'
  cases e'
  exact hp

/-- Entries for objects that are not directories are proper. -/
theorem Inv.proper_of_file {s : S} {x : N} {n : I} (e : t.ent s = some (x, n)) (hn : ¬ t.dir n) :
    t.Proper C s n := by
  refine ⟨x, e, ?_, ?_⟩
  · rintro rfl
    have := h.dot_target e
    exact hn (this ▸ (h.owner_dir e).2)
  · rintro rfl
    exact hn (h.dotdot_dir e)

theorem Inv.refs_finite (n : I) : (t.refs n).Finite :=
  h.finite.subset fun s ⟨x, e⟩ => by simp [e]

theorem Inv.subdirs_finite (n : I) : (t.subdirs C n).Finite :=
  h.finite.subset fun s ⟨_, m, ⟨x, e, _⟩, _⟩ => by simp [e]

end Facts

/-! ## Adding entries -/

section Add

variable [DecidableEq S] [DecidableEq I]

/-- Slot `s` is free and its directory has no entry `x`. -/
structure Room (C : Naming I S N) (t : NameTree I S N) (s : S) (x : N) : Prop where
  free : t.ent s = none
  live : t.live (C.owner s)
  dir : t.dir (C.owner s)
  name : ∀ s' m, C.owner s' = C.owner s → t.ent s' ≠ some (x, m)

/-- An entry for `f`, which is a new file or has one more link now; `k` is its link count. -/
def addRef (t : NameTree I S N) (s : S) (x : N) (f : I) (k : ℕ) : NameTree I S N where
  live m := m = f ∨ t.live m
  dir m := m ≠ f ∧ t.dir m
  links := Function.update t.links f k
  ent := Function.update t.ent s (some (x, f))

/-- A new directory `n`, held by slot `s`; `s₁` and `s₂` are its first two slots. -/
def addDir (C : Naming I S N) (t : NameTree I S N) (s : S) (x : N) (n : I) (s₁ s₂ : S) :
    NameTree I S N where
  live m := m = n ∨ t.live m
  dir m := m = n ∨ t.dir m
  links := Function.update (Function.update t.links (C.owner s) (t.links (C.owner s) + 1)) n 2
  ent := Function.update (Function.update (Function.update t.ent s (some (x, n)))
    s₁ (some (C.dot, n))) s₂ (some (C.dotdot, C.owner s))

variable {C : Naming I S N} {t : NameTree I S N}

omit [DecidableEq S] [DecidableEq I] in
theorem Reach.mono {t' : NameTree I S N} (hp : ∀ s n, t.Proper C s n → t'.Proper C s n) {n : I}
    (h : t.Reach C n) : t'.Reach C n := by
  induction h with
  | root => exact Reach.root
  | step _ hs ih => exact Reach.step ih (hp _ _ hs)

omit [DecidableEq S] [DecidableEq I] in
theorem Room.ne_dots (h : t.Inv C) {s : S} {x : N} (hr : Room C t s x) :
    x ≠ C.dot ∧ x ≠ C.dotdot := by
  obtain ⟨u, hu, e⟩ := h.dot_entry hr.live hr.dir
  obtain ⟨v, p, hv, e', -⟩ := h.dotdot_exists hr.live hr.dir
  constructor
  · rintro rfl
    exact hr.name u _ hu e
  · rintro rfl
    exact hr.name v _ hv e'

omit [DecidableEq I] in
theorem update_ent {s s' : S} {e e' : N × I} (hs : t.ent s = none) :
    Function.update t.ent s (some e) s' = some e' ↔ (s' = s ∧ e' = e) ∨ t.ent s' = some e' := by
  by_cases hss : s' = s
  · subst hss
    rw [Function.update_self, hs]
    simp [eq_comm]
  · rw [Function.update_of_ne hss]
    simp [hss]

theorem proper_addRef (h : t.Inv C) {s : S} {x : N} (hr : Room C t s x) (f : I) (k : ℕ) (s' : S)
    (m : I) : (t.addRef s x f k).Proper C s' m ↔ (s' = s ∧ m = f) ∨ t.Proper C s' m := by
  constructor
  · rintro ⟨y, e, hy⟩
    rcases (update_ent hr.free).mp e with ⟨h1, h2⟩ | h1
    · cases h2
      exact Or.inl ⟨h1, rfl⟩
    · exact Or.inr ⟨y, h1, hy⟩
  · rintro (⟨rfl, rfl⟩ | ⟨y, e, hy⟩)
    · exact ⟨x, (update_ent hr.free).mpr (Or.inl ⟨rfl, rfl⟩), hr.ne_dots h⟩
    · exact ⟨y, (update_ent hr.free).mpr (Or.inr e), hy⟩

/-- A new file, or one more link to a file, keeps the invariant. -/
theorem Inv.addRef (h : t.Inv C) {s : S} {x : N} (hr : Room C t s x) {f : I} {k : ℕ}
    (hf : (¬ t.live f ∧ k = 1) ∨ (t.live f ∧ ¬ t.dir f ∧ k = t.links f + 1)) :
    (t.addRef s x f k).Inv C := by
  have hP := proper_addRef h hr f k
  have hne : ∀ m, t.live m → t.dir m → m ≠ f := by
    rintro m h1 h2 rfl
    rcases hf with hf | hf
    · exact hf.1 h1
    · exact hf.2.1 h2
  have hE : ∀ {s' e'}, (t.addRef s x f k).ent s' = some e' ↔
      (s' = s ∧ e' = (x, f)) ∨ t.ent s' = some e' := update_ent hr.free
  have hkeep : ∀ {u e}, t.ent u = some e → (t.addRef s x f k).ent u = some e :=
    fun e => hE.mpr (Or.inr e)
  have hroot := hne _ h.root_live h.root_dir
  have hs : ∀ s', C.owner s' = C.owner s → ∀ n, t.ent s' ≠ some (x, n) :=
    fun s' e n => hr.name s' n e
  refine
    { root_live := Or.inr h.root_live
      root_dir := ⟨hroot, h.root_dir⟩
      owner_dir := ?_, target_live := ?_, distinct := ?_, finite := ?_, file_links := ?_
      dir_links := ?_, dot_entry := ?_, dotdot_entry := ?_, dotdot_root := ?_, held_once := ?_
      root_free := ?_, reach := ?_ }
  · intro s' e he
    have : t.live (C.owner s') ∧ t.dir (C.owner s') := by
      rcases hE.mp he with ⟨rfl, -⟩ | he
      · exact ⟨hr.live, hr.dir⟩
      · exact h.owner_dir he
    exact ⟨Or.inr this.1, hne _ this.1 this.2, this.2⟩
  · intro s' y n he
    rcases hE.mp he with ⟨-, e⟩ | he
    · cases e
      exact Or.inl rfl
    · exact Or.inr (h.target_live he)
  · intro s' s'' y n n' he he' ho
    rcases hE.mp he with ⟨rfl, e⟩ | h1 <;> rcases hE.mp he' with ⟨rfl, e'⟩ | h2
    · rfl
    · cases e
      exact absurd h2 (hs _ ho.symm _)
    · cases e'
      exact absurd h1 (hs _ ho _)
    · exact h.distinct h1 h2 ho
  · refine (h.finite.insert s).subset fun s' hs' => ?_
    by_cases e : s' = s
    · exact Or.inl e
    · refine Or.inr ?_
      have : (t.addRef s x f k).ent s' = t.ent s' := Function.update_of_ne e _ _
      rwa [Set.mem_ofPred_eq, this] at hs'
  · intro n hn hd
    show Function.update t.links f k n = _
    by_cases hnf : n = f
    · subst hnf
      have hrefs : (t.addRef s x n k).refs n = insert s (t.refs n) := by
        ext s'
        simp only [refs, Set.mem_ofPred_eq, Set.mem_insert_iff, hE, Prod.mk.injEq, and_true]
        constructor
        · rintro ⟨y, ⟨h1, -⟩ | h1⟩
          · exact Or.inl h1
          · exact Or.inr ⟨y, h1⟩
        · rintro (rfl | ⟨y, h1⟩)
          · exact ⟨x, Or.inl ⟨rfl, rfl⟩⟩
          · exact ⟨y, Or.inr h1⟩
      have hnot : s ∉ t.refs n := by
        rintro ⟨y, e⟩
        rw [hr.free] at e
        cases e
      rw [Function.update_self, hrefs, Set.ncard_insert_of_notMem hnot (h.refs_finite n)]
      rcases hf with ⟨h1, rfl⟩ | ⟨h1, h2, rfl⟩
      · have : t.refs n = ∅ := by
          ext s'
          simp only [refs, Set.mem_ofPred_eq, Set.mem_empty_iff_false, iff_false]
          rintro ⟨y, e⟩
          exact h.not_ref_dead h1 e
        rw [this, Set.ncard_empty]
      · rw [h.file_links h1 h2]
    · have hrefs : (t.addRef s x f k).refs n = t.refs n := by
        ext s'
        simp only [refs, Set.mem_ofPred_eq, hE, Prod.mk.injEq, hnf, and_false, false_or]
      rw [Function.update_of_ne hnf, hrefs]
      exact h.file_links (hn.resolve_left hnf) fun hd' => hd ⟨hnf, hd'⟩
  · rintro n hn ⟨hnf, hd⟩
    have hsub : (t.addRef s x f k).subdirs C n = t.subdirs C n := by
      ext s'
      constructor
      · rintro ⟨ho, m, hm, hmf, hmd⟩
        rcases (hP _ _).mp hm with ⟨-, h2⟩ | hm
        · exact absurd h2 hmf
        · exact ⟨ho, m, hm, hmd⟩
      · rintro ⟨ho, m, ⟨y, e, hy⟩, hmd⟩
        exact ⟨ho, m, (hP _ _).mpr (Or.inr ⟨y, e, hy⟩), hne _ (h.target_live e) hmd, hmd⟩
    show Function.update t.links f k n = _
    rw [Function.update_of_ne hnf, hsub]
    exact h.dir_links (hn.resolve_left hnf) hd
  · rintro n hn ⟨hnf, hd⟩
    obtain ⟨u, hu, e⟩ := h.dot_entry (hn.resolve_left hnf) hd
    exact ⟨u, hu, hkeep e⟩
  · rintro s' n hp ⟨hnf, hd⟩
    rcases (hP _ _).mp hp with ⟨-, h2⟩ | hp
    · exact absurd h2 hnf
    · obtain ⟨u, hu, e⟩ := h.dotdot_entry hp hd
      exact ⟨u, hu, hkeep e⟩
  · obtain ⟨u, hu, e⟩ := h.dotdot_root
    exact ⟨u, hu, hkeep e⟩
  · rintro s' s'' n hp hp' ⟨hnf, hd⟩
    rcases (hP _ _).mp hp with ⟨-, h2⟩ | hp
    · exact absurd h2 hnf
    · rcases (hP _ _).mp hp' with ⟨-, h2⟩ | hp'
      · exact absurd h2 hnf
      · exact h.held_once hp hp' hd
  · intro s' hp
    rcases (hP _ _).mp hp with ⟨-, h2⟩ | hp
    · exact hroot h2
    · exact h.root_free hp
  · rintro n (rfl | hn)
    · exact Reach.step ((h.reach hr.live).mono fun s' m hp => (hP _ _).mpr (Or.inr hp))
        ((hP _ _).mpr (Or.inl ⟨rfl, rfl⟩))
    · exact (h.reach hn).mono fun s' m hp => (hP _ _).mpr (Or.inr hp)

section NewDir

variable {s s₁ s₂ : S} {x : N} {n : I}

/-- The slots of a new directory: `s₁` and `s₂` are two slots of the fresh object `n`. -/
structure Fresh (C : Naming I S N) (t : NameTree I S N) (n : I) (s₁ s₂ : S) : Prop where
  dead : ¬ t.live n
  ne : s₁ ≠ s₂
  owner₁ : C.owner s₁ = n
  owner₂ : C.owner s₂ = n

theorem ent_addDir (h : t.Inv C) (hr : Room C t s x) (hn : Fresh C t n s₁ s₂) {s' : S}
    {e : N × I} : (t.addDir C s x n s₁ s₂).ent s' = some e ↔
      (s' = s ∧ e = (x, n)) ∨ (s' = s₁ ∧ e = (C.dot, n)) ∨
      (s' = s₂ ∧ e = (C.dotdot, C.owner s)) ∨ t.ent s' = some e := by
  have h1 : t.ent s₁ = none := h.ent_of_dead (by rw [hn.owner₁]; exact hn.dead)
  have h2 : t.ent s₂ = none := h.ent_of_dead (by rw [hn.owner₂]; exact hn.dead)
  have hs1 : s ≠ s₁ := by rintro rfl; exact hn.dead (hn.owner₁ ▸ hr.live)
  have hs2 : s ≠ s₂ := by rintro rfl; exact hn.dead (hn.owner₂ ▸ hr.live)
  have hss := hn.ne
  simp only [addDir, Function.update_apply]
  by_cases e2 : s' = s₂
  · subst e2
    simp [h2, hs2.symm, hss.symm, eq_comm]
  · by_cases e1 : s' = s₁
    · subst e1
      simp [h1, hs1.symm, hss, eq_comm]
    · by_cases e0 : s' = s
      · subst e0
        simp [e1, e2, hr.free, eq_comm]
      · simp [e0, e1, e2]

theorem proper_addDir (h : t.Inv C) (hr : Room C t s x) (hn : Fresh C t n s₁ s₂) (s' : S) (m : I) :
    (t.addDir C s x n s₁ s₂).Proper C s' m ↔ (s' = s ∧ m = n) ∨ t.Proper C s' m := by
  constructor
  · rintro ⟨y, e, hy1, hy2⟩
    rcases (ent_addDir h hr hn).mp e with ⟨h1, h2⟩ | ⟨-, h2⟩ | ⟨-, h2⟩ | h1
    · cases h2
      exact Or.inl ⟨h1, rfl⟩
    · cases h2
      exact absurd rfl hy1
    · cases h2
      exact absurd rfl hy2
    · exact Or.inr ⟨y, h1, hy1, hy2⟩
  · rintro (⟨rfl, rfl⟩ | ⟨y, e, hy⟩)
    · exact ⟨x, (ent_addDir h hr hn).mpr (Or.inl ⟨rfl, rfl⟩), hr.ne_dots h⟩
    · exact ⟨y, (ent_addDir h hr hn).mpr (Or.inr (Or.inr (Or.inr e))), hy⟩

/-- The entries of a new directory. -/
theorem addDir_distinct (h : t.Inv C) (hr : Room C t s x) (hn : Fresh C t n s₁ s₂) {u u' : S}
    {y : N} {m m' : I} (he : (t.addDir C s x n s₁ s₂).ent u = some (y, m))
    (he' : (t.addDir C s x n s₁ s₂).ent u' = some (y, m')) (ho : C.owner u = C.owner u') :
    u = u' := by
  have hold : ∀ {v e}, t.ent v = some e → C.owner v ≠ n := by
    intro v e hv hvn
    exact hn.dead (hvn ▸ (h.owner_dir hv).1)
  have hsn : C.owner s ≠ n := by
    intro e
    exact hn.dead (e ▸ hr.live)
  have hdd := C.ne
  have h1 := hn.owner₁
  have h2 := hn.owner₂
  rcases (ent_addDir h hr hn).mp he with ⟨rfl, e⟩ | ⟨rfl, e⟩ | ⟨rfl, e⟩ | e <;>
  rcases (ent_addDir h hr hn).mp he' with ⟨rfl, e'⟩ | ⟨rfl, e'⟩ | ⟨rfl, e'⟩ | e'
  · rfl
  · exact absurd (ho.trans h1) hsn
  · exact absurd (ho.trans h2) hsn
  · cases e
    exact absurd e' (hr.name _ _ ho.symm)
  · exact absurd (ho.symm.trans h1) hsn
  · rfl
  · exact absurd ((Prod.mk.inj e).1.symm.trans (Prod.mk.inj e').1) hdd
  · exact absurd (ho.symm.trans h1) (hold e')
  · exact absurd (ho.symm.trans h2) hsn
  · exact absurd ((Prod.mk.inj e').1.symm.trans (Prod.mk.inj e).1) hdd
  · rfl
  · exact absurd (ho.symm.trans h2) (hold e')
  · cases e'
    exact absurd e (hr.name _ _ ho)
  · exact absurd (ho.trans h1) (hold e)
  · exact absurd (ho.trans h2) (hold e)
  · exact h.distinct e e' ho

/-- A new directory keeps the invariant. -/
theorem Inv.addDir (h : t.Inv C) (hr : Room C t s x) (hn : Fresh C t n s₁ s₂) :
    (t.addDir C s x n s₁ s₂).Inv C := by
  have hP := proper_addDir h hr hn
  have hE : ∀ {s' e}, (t.addDir C s x n s₁ s₂).ent s' = some e ↔ _ := ent_addDir h hr hn
  have hkeep : ∀ {u e}, t.ent u = some e → (t.addDir C s x n s₁ s₂).ent u = some e :=
    fun e => hE.mpr (Or.inr (Or.inr (Or.inr e)))
  have hpn : C.owner s ≠ n := fun e => hn.dead (e ▸ hr.live)
  have hold : ∀ {u m}, t.Proper C u m → m ≠ n := by
    rintro u m ⟨y, e, -⟩ rfl
    exact h.not_ref_dead hn.dead e
  have hrn : C.root ≠ n := fun e => hn.dead (e ▸ h.root_live)
  refine
    { root_live := Or.inr h.root_live
      root_dir := Or.inr h.root_dir
      owner_dir := ?_, target_live := ?_, distinct := addDir_distinct h hr hn, finite := ?_
      file_links := ?_, dir_links := ?_, dot_entry := ?_, dotdot_entry := ?_, dotdot_root := ?_
      held_once := ?_, root_free := ?_, reach := ?_ }
  · intro s' e he
    rcases hE.mp he with ⟨rfl, -⟩ | ⟨rfl, -⟩ | ⟨rfl, -⟩ | he
    · exact ⟨Or.inr hr.live, Or.inr hr.dir⟩
    · exact ⟨Or.inl hn.owner₁, Or.inl hn.owner₁⟩
    · exact ⟨Or.inl hn.owner₂, Or.inl hn.owner₂⟩
    · exact ⟨Or.inr (h.owner_dir he).1, Or.inr (h.owner_dir he).2⟩
  · intro s' y m he
    rcases hE.mp he with ⟨-, e⟩ | ⟨-, e⟩ | ⟨-, e⟩ | he
    · exact Or.inl (Prod.mk.inj e).2
    · exact Or.inl (Prod.mk.inj e).2
    · rw [(Prod.mk.inj e).2]
      exact Or.inr hr.live
    · exact Or.inr (h.target_live he)
  · refine (((h.finite.insert s).insert s₁).insert s₂).subset fun s' hs' => ?_
    obtain ⟨e, he⟩ := Option.ne_none_iff_exists'.mp hs'
    rcases hE.mp he with ⟨rfl, -⟩ | ⟨rfl, -⟩ | ⟨rfl, -⟩ | he
    · simp
    · simp
    · simp
    · simp [he]
  · intro m hm hd
    have hmn : m ≠ n := fun e => hd (Or.inl e)
    have hmd : ¬ t.dir m := fun e => hd (Or.inr e)
    have hmp : m ≠ C.owner s := by
      rintro rfl
      exact hmd hr.dir
    have hrefs : (t.addDir C s x n s₁ s₂).refs m = t.refs m := by
      ext s'
      simp only [refs, Set.mem_ofPred_eq, hE, Prod.mk.injEq, hmn, hmp, and_false, false_or]
    show Function.update (Function.update t.links _ _) n 2 m = _
    rw [Function.update_of_ne hmn, Function.update_of_ne hmp, hrefs]
    exact h.file_links (hm.resolve_left hmn) hmd
  · intro m hm hd
    show Function.update (Function.update t.links _ _) n 2 m = _
    by_cases hmn : m = n
    · -- the new directory has no subdirectories
      subst hmn
      have : (t.addDir C s x m s₁ s₂).subdirs C m = ∅ := by
        ext s'
        simp only [subdirs, Set.mem_ofPred_eq, Set.mem_empty_iff_false, iff_false]
        rintro ⟨ho, k, hk, -⟩
        rcases (hP _ _).mp hk with ⟨rfl, -⟩ | ⟨y, e, -⟩
        · exact hpn ho
        · exact hn.dead (ho ▸ (h.owner_dir e).1)
      rw [Function.update_self, this, Set.ncard_empty]
    · have hd' : t.dir m := hd.resolve_left hmn
      have hm' : t.live m := hm.resolve_left hmn
      rw [Function.update_of_ne hmn]
      by_cases hmp : m = C.owner s
      · subst hmp
        have : (t.addDir C s x n s₁ s₂).subdirs C (C.owner s) =
            insert s (t.subdirs C (C.owner s)) := by
          ext s'
          simp only [subdirs, Set.mem_ofPred_eq, Set.mem_insert_iff]
          constructor
          · rintro ⟨ho, k, hk, hkd⟩
            rcases (hP _ _).mp hk with ⟨rfl, -⟩ | hk
            · exact Or.inl rfl
            · exact Or.inr ⟨ho, k, hk, hkd.resolve_left (hold hk)⟩
          · rintro (rfl | ⟨ho, k, hk, hkd⟩)
            · exact ⟨rfl, n, (hP _ _).mpr (Or.inl ⟨rfl, rfl⟩), Or.inl rfl⟩
            · exact ⟨ho, k, (hP _ _).mpr (Or.inr hk), Or.inr hkd⟩
        have hnot : s ∉ t.subdirs C (C.owner s) := by
          rintro ⟨-, k, ⟨y, e, -⟩, -⟩
          rw [hr.free] at e
          cases e
        rw [Function.update_self, this,
          Set.ncard_insert_of_notMem hnot (h.subdirs_finite _), h.dir_links hm' hd']
        omega
      · have : (t.addDir C s x n s₁ s₂).subdirs C m = t.subdirs C m := by
          ext s'
          simp only [subdirs, Set.mem_ofPred_eq]
          constructor
          · rintro ⟨ho, k, hk, hkd⟩
            rcases (hP _ _).mp hk with ⟨rfl, -⟩ | hk
            · exact absurd ho.symm hmp
            · exact ⟨ho, k, hk, hkd.resolve_left (hold hk)⟩
          · rintro ⟨ho, k, hk, hkd⟩
            exact ⟨ho, k, (hP _ _).mpr (Or.inr hk), Or.inr hkd⟩
        rw [Function.update_of_ne hmp, this]
        exact h.dir_links hm' hd'
  · intro m hm hd
    by_cases hmn : m = n
    · exact ⟨s₁, hn.owner₁.trans hmn.symm, hE.mpr (Or.inr (Or.inl ⟨rfl, by rw [hmn]⟩))⟩
    · obtain ⟨u, hu, e⟩ := h.dot_entry (hm.resolve_left hmn) (hd.resolve_left hmn)
      exact ⟨u, hu, hkeep e⟩
  · intro s' m hp hd
    rcases (hP _ _).mp hp with ⟨rfl, rfl⟩ | hp
    · exact ⟨s₂, hn.owner₂, hE.mpr (Or.inr (Or.inr (Or.inl ⟨rfl, rfl⟩)))⟩
    · obtain ⟨u, hu, e⟩ := h.dotdot_entry hp (hd.resolve_left (hold hp))
      exact ⟨u, hu, hkeep e⟩
  · obtain ⟨u, hu, e⟩ := h.dotdot_root
    exact ⟨u, hu, hkeep e⟩
  · intro s' s'' m hp hp' hd
    rcases (hP _ _).mp hp with ⟨rfl, h1⟩ | hp
    · rcases (hP _ _).mp hp' with ⟨rfl, -⟩ | hp'
      · rfl
      · exact absurd h1 (hold hp')
    · rcases (hP _ _).mp hp' with ⟨-, h1⟩ | hp'
      · exact absurd h1 (hold hp)
      · exact h.held_once hp hp' (hd.resolve_left (hold hp))
  · intro s' hp
    rcases (hP _ _).mp hp with ⟨-, h1⟩ | hp
    · exact hrn h1
    · exact h.root_free hp
  · rintro m (rfl | hm)
    · exact Reach.step ((h.reach hr.live).mono fun s' k hp => (hP _ _).mpr (Or.inr hp))
        ((hP _ _).mpr (Or.inl ⟨rfl, rfl⟩))
    · exact (h.reach hm).mono fun s' k hp => (hP _ _).mpr (Or.inr hp)

end NewDir

end Add

/-! ## Removing entries -/

section Remove

variable [DecidableEq S] [DecidableEq I]

/-- The entry in slot `s`, which refers to `f`, is removed; with the last link the object dies. -/
def removeRef (t : NameTree I S N) (s : S) (f : I) : NameTree I S N where
  live m := t.live m ∧ (m = f → t.links f ≠ 1)
  dir := t.dir
  links := if t.links f = 1 then t.links else Function.update t.links f (t.links f - 1)
  ent := Function.update t.ent s none

/-- The directory `n`, held by slot `s`, is removed with its own slots. -/
def removeDir (C : Naming I S N) (t : NameTree I S N) (s : S) (n : I) : NameTree I S N where
  live m := t.live m ∧ m ≠ n
  dir := t.dir
  links := Function.update t.links (C.owner s) (t.links (C.owner s) - 1)
  ent s' := if s' = s ∨ C.owner s' = n then none else t.ent s'

variable {C : Naming I S N} {t : NameTree I S N}

omit [DecidableEq I] in
theorem update_none {s s' : S} {e : N × I} :
    Function.update t.ent s none s' = some e ↔ s' ≠ s ∧ t.ent s' = some e := by
  by_cases hss : s' = s
  · subst hss
    simp
  · rw [Function.update_of_ne hss]
    simp [hss]

/-- Removing an entry for a file keeps the invariant. -/
theorem Inv.removeRef (h : t.Inv C) {s : S} {x : N} {f : I} (hs : t.ent s = some (x, f))
    (hf : ¬ t.dir f) : (t.removeRef s f).Inv C := by
  have hE : ∀ {s' e}, (t.removeRef s f).ent s' = some e ↔ s' ≠ s ∧ t.ent s' = some e := update_none
  have hP : ∀ s' m, (t.removeRef s f).Proper C s' m ↔ s' ≠ s ∧ t.Proper C s' m := by
    intro s' m
    simp only [Proper, hE]
    tauto
  have hlive : ∀ {m}, t.live m → t.dir m → (t.removeRef s f).live m := by
    intro m h1 h2
    refine ⟨h1, ?_⟩
    rintro rfl
    exact absurd h2 hf
  have hne : ∀ {u y m}, t.ent u = some (y, m) → t.dir m → u ≠ s := by
    rintro u y m e hd rfl
    rw [hs] at e
    cases e
    exact hf hd
  have hmem : s ∈ t.refs f := ⟨x, hs⟩
  have hfl := h.file_links (h.target_live hs) hf
  have hlinks : ∀ {m}, m ≠ f → (t.removeRef s f).links m = t.links m := by
    intro m hm
    show (if _ then _ else _ : I → ℕ) m = _
    split_ifs
    · rfl
    · exact Function.update_of_ne hm _ _
  refine
    { root_live := hlive h.root_live h.root_dir
      root_dir := h.root_dir
      owner_dir := ?_, target_live := ?_, distinct := ?_, finite := ?_, file_links := ?_
      dir_links := ?_, dot_entry := ?_, dotdot_entry := ?_, dotdot_root := ?_, held_once := ?_
      root_free := ?_, reach := ?_ }
  · intro s' e he
    obtain ⟨h1, h2⟩ := h.owner_dir (hE.mp he).2
    exact ⟨hlive h1 h2, h2⟩
  · intro s' y m he
    obtain ⟨h1, h2⟩ := hE.mp he
    refine ⟨h.target_live h2, ?_⟩
    rintro rfl hl
    -- with one link the removed entry was the only one
    rw [hfl, Set.ncard_eq_one] at hl
    obtain ⟨a, ha⟩ := hl
    have e1 : s ∈ ({a} : Set S) := ha ▸ hmem
    have e2 : s' ∈ ({a} : Set S) := ha ▸ (⟨y, h2⟩ : s' ∈ t.refs m)
    exact h1 (e2.trans e1.symm)
  · intro s' s'' y m m' he he' ho
    exact h.distinct (hE.mp he).2 (hE.mp he').2 ho
  · refine h.finite.subset fun s' hs' => ?_
    obtain ⟨e, he⟩ := Option.ne_none_iff_exists'.mp hs'
    simp [(hE.mp he).2]
  · rintro m ⟨hm, hm'⟩ hd
    by_cases hmf : m = f
    · subst hmf
      have hrefs : (t.removeRef s m).refs m = t.refs m \ {s} := by
        ext s'
        simp only [refs, Set.mem_ofPred_eq, hE, Set.mem_sdiff, Set.mem_singleton_iff]
        tauto
      rw [hrefs, Set.ncard_sdiff_singleton_of_mem hmem, ← hfl]
      show (if _ then _ else _ : I → ℕ) m = _
      rw [if_neg (hm' rfl), Function.update_self]
    · have hrefs : (t.removeRef s f).refs m = t.refs m := by
        ext s'
        simp only [refs, Set.mem_ofPred_eq, hE]
        constructor
        · rintro ⟨y, -, e⟩
          exact ⟨y, e⟩
        · rintro ⟨y, e⟩
          refine ⟨y, ?_, e⟩
          rintro rfl
          rw [hs] at e
          cases e
          exact hmf rfl
      rw [hlinks hmf, hrefs]
      exact h.file_links hm hd
  · rintro m ⟨hm, -⟩ hd
    have hmf : m ≠ f := by
      rintro rfl
      exact hf hd
    have hsub : (t.removeRef s f).subdirs C m = t.subdirs C m := by
      ext s'
      constructor
      · rintro ⟨ho, k, hk, hkd⟩
        exact ⟨ho, k, ((hP _ _).mp hk).2, hkd⟩
      · rintro ⟨ho, k, ⟨y, e, hy⟩, hkd⟩
        exact ⟨ho, k, (hP _ _).mpr ⟨hne e hkd, y, e, hy⟩, hkd⟩
    rw [hlinks hmf, hsub]
    exact h.dir_links hm hd
  · rintro m ⟨hm, -⟩ hd
    obtain ⟨u, hu, e⟩ := h.dot_entry hm hd
    exact ⟨u, hu, hE.mpr ⟨hne e hd, e⟩⟩
  · intro s' m hp hd
    obtain ⟨-, hp⟩ := (hP _ _).mp hp
    obtain ⟨u, hu, e⟩ := h.dotdot_entry hp hd
    exact ⟨u, hu, hE.mpr ⟨hne e (h.dotdot_dir e), e⟩⟩
  · obtain ⟨u, hu, e⟩ := h.dotdot_root
    exact ⟨u, hu, hE.mpr ⟨hne e h.root_dir, e⟩⟩
  · intro s' s'' m hp hp' hd
    exact h.held_once ((hP _ _).mp hp).2 ((hP _ _).mp hp').2 hd
  · intro s' hp
    exact h.root_free ((hP _ _).mp hp).2
  · rintro m ⟨hm, hm'⟩
    -- files are never inside a path, so the paths to directories are as before
    have hdir : ∀ k, t.Reach C k → t.dir k → (t.removeRef s f).Reach C k := by
      intro k hk
      induction hk with
      | root => intro _; exact Reach.root
      | step _ hp ih =>
        intro hd
        obtain ⟨y, e, hy⟩ := hp
        exact Reach.step (ih (h.owner_dir e).2) ((hP _ _).mpr ⟨hne e hd, y, e, hy⟩)
    by_cases hd : t.dir m
    · exact hdir m (h.reach hm) hd
    · -- some entry for the file is left
      obtain ⟨u, hu, y, e⟩ : ∃ u, u ≠ s ∧ ∃ y, t.ent u = some (y, m) := by
        by_cases hmf : m = f
        · subst hmf
          have hl := hm' rfl
          rw [hfl] at hl
          have hpos := (Set.ncard_pos (h.refs_finite m)).mpr ⟨s, hmem⟩
          obtain ⟨u, hu, hus⟩ := Set.exists_ne_of_one_lt_ncard
            (show 1 < (t.refs m).ncard by omega) s
          exact ⟨u, hus, hu⟩
        · obtain ⟨u, y, e, -⟩ := h.held hm (by rintro rfl; exact hd h.root_dir)
          refine ⟨u, ?_, y, e⟩
          rintro rfl
          rw [hs] at e
          cases e
          exact hmf rfl
      exact Reach.step (hdir _ (h.reach (h.owner_dir e).1) (h.owner_dir e).2)
        ((hP _ _).mpr ⟨hu, h.proper_of_file e hd⟩)

/-- Nothing but its two dots is in directory `n`. -/
def Empty (C : Naming I S N) (t : NameTree I S N) (n : I) : Prop :=
  ∀ s m, C.owner s = n → ¬ t.Proper C s m

/-- Removing an empty directory keeps the invariant. -/
theorem Inv.removeDir (h : t.Inv C) {s : S} {n : I} (hs : t.Proper C s n) (hd : t.dir n)
    (he : t.Empty C n) : (t.removeDir C s n).Inv C := by
  have hE : ∀ {s' e}, (t.removeDir C s n).ent s' = some e ↔
      s' ≠ s ∧ C.owner s' ≠ n ∧ t.ent s' = some e := by
    intro s' e
    show (if _ then none else t.ent s') = some e ↔ _
    split_ifs with hc
    · simp only [false_iff]
      tauto
    · tauto
  have hP : ∀ s' m, (t.removeDir C s n).Proper C s' m ↔ s' ≠ s ∧ t.Proper C s' m := by
    intro s' m
    constructor
    · rintro ⟨y, e, hy⟩
      exact ⟨(hE.mp e).1, y, (hE.mp e).2.2, hy⟩
    · rintro ⟨h1, y, e, hy⟩
      exact ⟨y, hE.mpr ⟨h1, fun ho => he s' m ho ⟨y, e, hy⟩, e⟩, hy⟩
  have hpn : C.owner s ≠ n := fun e => he s n e hs
  have hrn : C.root ≠ n := by
    rintro rfl
    exact h.root_free hs
  obtain ⟨xs, hxs, hxs1, hxs2⟩ := hs
  have hs : t.Proper C s n := ⟨xs, hxs, hxs1, hxs2⟩
  -- the only entries for the directory are the removed one and its own
  have htgt : ∀ {u y}, t.ent u = some (y, n) → u = s ∨ C.owner u = n := by
    intro u y e
    by_cases h1 : y = C.dot
    · subst h1
      exact Or.inr (h.dot_target e).symm
    · by_cases h2 : y = C.dotdot
      · subst h2
        obtain ⟨o1, o2⟩ := h.owner_dir e
        by_cases hr : C.owner u = C.root
        · obtain ⟨v, hv, e'⟩ := h.dotdot_root
          obtain rfl := h.distinct e e' (hr.trans hv.symm)
          rw [e] at e'
          cases e'
          exact absurd rfl hrn
        · obtain ⟨w, hw⟩ := h.held o1 hr
          obtain ⟨v, hv, e'⟩ := h.dotdot_entry hw o2
          obtain rfl := h.distinct e e' hv.symm
          rw [e] at e'
          exact absurd hw (he w _ (Prod.mk.inj (Option.some.inj e')).2.symm)
      · exact Or.inl (h.held_once ⟨y, e, h1, h2⟩ hs hd)
  refine
    { root_live := ⟨h.root_live, hrn⟩
      root_dir := h.root_dir
      owner_dir := ?_, target_live := ?_, distinct := ?_, finite := ?_, file_links := ?_
      dir_links := ?_, dot_entry := ?_, dotdot_entry := ?_, dotdot_root := ?_, held_once := ?_
      root_free := ?_, reach := ?_ }
  · intro s' e hse
    obtain ⟨-, h2, h3⟩ := hE.mp hse
    exact ⟨⟨(h.owner_dir h3).1, h2⟩, (h.owner_dir h3).2⟩
  · intro s' y m hse
    obtain ⟨h1, h2, h3⟩ := hE.mp hse
    refine ⟨h.target_live h3, ?_⟩
    rintro rfl
    rcases htgt h3 with e | e
    · exact h1 e
    · exact h2 e
  · intro s' s'' y m m' h1 h2 ho
    exact h.distinct (hE.mp h1).2.2 (hE.mp h2).2.2 ho
  · refine h.finite.subset fun s' hs' => ?_
    obtain ⟨e, hse⟩ := Option.ne_none_iff_exists'.mp hs'
    simp [(hE.mp hse).2.2]
  · rintro m ⟨hm, hmn⟩ hmd
    have hrefs : (t.removeDir C s n).refs m = t.refs m := by
      ext s'
      simp only [refs, Set.mem_ofPred_eq, hE]
      constructor
      · rintro ⟨y, -, -, e⟩
        exact ⟨y, e⟩
      · rintro ⟨y, e⟩
        refine ⟨y, ?_, fun ho => he s' m ho (h.proper_of_file e hmd), e⟩
        rintro rfl
        rw [hxs] at e
        cases e
        exact hmn rfl
    show Function.update t.links _ _ m = _
    rw [Function.update_of_ne (by rintro rfl; exact hmd (h.owner_dir hxs).2), hrefs]
    exact h.file_links hm hmd
  · rintro m ⟨hm, hmn⟩ hmd
    show Function.update t.links _ _ m = _
    by_cases hmp : m = C.owner s
    · subst hmp
      have hsub : (t.removeDir C s n).subdirs C (C.owner s) = t.subdirs C (C.owner s) \ {s} := by
        ext s'
        simp only [subdirs, Set.mem_ofPred_eq, Set.mem_sdiff, Set.mem_singleton_iff, hP]
        constructor
        · rintro ⟨ho, k, ⟨hk1, hk2⟩, hkd⟩
          exact ⟨⟨ho, k, hk2, hkd⟩, hk1⟩
        · rintro ⟨⟨ho, k, hk2, hkd⟩, hk1⟩
          exact ⟨ho, k, ⟨hk1, hk2⟩, hkd⟩
      have hmem : s ∈ t.subdirs C (C.owner s) := ⟨rfl, n, hs, hd⟩
      have hpos := (Set.ncard_pos (h.subdirs_finite (C.owner s))).mpr ⟨s, hmem⟩
      rw [Function.update_self, hsub, Set.ncard_sdiff_singleton_of_mem hmem, h.dir_links hm hmd]
      omega
    · have hsub : (t.removeDir C s n).subdirs C m = t.subdirs C m := by
        ext s'
        simp only [subdirs, Set.mem_ofPred_eq, hP]
        constructor
        · rintro ⟨ho, k, ⟨-, hk2⟩, hkd⟩
          exact ⟨ho, k, hk2, hkd⟩
        · rintro ⟨ho, k, hk2, hkd⟩
          refine ⟨ho, k, ⟨?_, hk2⟩, hkd⟩
          rintro rfl
          exact hmp ho.symm
      rw [Function.update_of_ne hmp, hsub]
      exact h.dir_links hm hmd
  · rintro m ⟨hm, hmn⟩ hmd
    obtain ⟨u, hu, e⟩ := h.dot_entry hm hmd
    refine ⟨u, hu, hE.mpr ⟨?_, by rwa [hu], e⟩⟩
    rintro rfl
    rw [hxs] at e
    cases e
    exact hmn rfl
  · intro s' m hp hmd
    obtain ⟨h1, h2⟩ := (hP _ _).mp hp
    obtain ⟨u, hu, e⟩ := h.dotdot_entry h2 hmd
    refine ⟨u, hu, hE.mpr ⟨?_, ?_, e⟩⟩
    · rintro rfl
      rw [hxs] at e
      exact hxs2 (Prod.mk.inj (Option.some.inj e)).1
    · rw [hu]
      rintro rfl
      exact h1 (h.held_once h2 hs hmd)
  · obtain ⟨u, hu, e⟩ := h.dotdot_root
    refine ⟨u, hu, hE.mpr ⟨?_, by rwa [hu], e⟩⟩
    rintro rfl
    rw [hxs] at e
    exact hxs2 (Prod.mk.inj (Option.some.inj e)).1
  · intro s' s'' m hp hp' hmd
    exact h.held_once ((hP _ _).mp hp).2 ((hP _ _).mp hp').2 hmd
  · intro s' hp
    exact h.root_free ((hP _ _).mp hp).2
  · rintro m ⟨hm, hmn⟩
    have hr : ∀ k, t.Reach C k → k ≠ n → (t.removeDir C s n).Reach C k := by
      intro k hk
      induction hk with
      | root => intro _; exact Reach.root
      | @step u k _ hp ih =>
        intro hkn
        refine Reach.step (ih fun ho => he u k ho hp) ((hP _ _).mpr ⟨?_, hp⟩)
        rintro rfl
        obtain ⟨y, e, -⟩ := hp
        rw [hxs] at e
        cases e
        exact hkn rfl
    exact hr m (h.reach hm) hmn

end Remove

end NameTree

end RiscvKernel.Lib
