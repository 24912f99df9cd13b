import RiscvKernel.Lib.Forest
import RiscvKernel.Fs.View

/-!
# The block map

The pointers of the inode table and of the index blocks form a forest (`cells`, `Shape`): the roots
are the twelve pointers of the marked inodes, and pointers 10 and 11 are followed through one and
two levels of index blocks. `pblk d n l` is the block that holds the logical block `l` of inode `n`.

`BlkInv` ties the block map to the forest: exactly the sentinel and the blocks of the forest are
marked, each block occurs once, and the sentinel is zero. `getPhysicalBlockId` fills at most three
cells of the forest (`Fill`), and for the caller this is a growth of one inode at one logical block
(`Grow`).
-/

namespace RiscvKernel.Fs

open Lib Lib.Forest

/-! ## The forest of a disk -/

/-- The pointer cells of a disk; a root is an inode number and one of its twelve pointers. -/
def cells (d : Mem) : Cells (ℕ × ℕ) := ⟨fun r => (inode d r.1).ptr r.2, idx d⟩

/-- The paths of the forest: pointer 10 has one level of index blocks and pointer 11 has two. -/
def Shape (d : Mem) (r : ℕ × ℕ) (ks : List ℕ) : Prop :=
  imap d r.1 = true ∧ r.2 < 12 ∧ ks.length ≤ r.2 - 9 ∧ ∀ k ∈ ks, k < 1024

/-- The number of logical blocks an inode can address. -/
def maxBlocks : ℕ := 10 + 1024 + 1024 * 1024

/-- The pointer and the index positions of a logical block, last step first. -/
def blockPath (l : ℕ) : ℕ × List ℕ :=
  if l < 10 then (l, [])
  else if l - 10 < 1024 then (10, [l - 10])
  else (11, [(l - 1034) % 1024, (l - 1034) / 1024])

/-- The block of logical block `l` of inode `n`, 0 for a hole. -/
def pblk (d : Mem) (n l : ℕ) : ℕ := ref (cells d) (n, (blockPath l).1) (blockPath l).2

/-- The block map agrees with the forest, and the sentinel is zero. -/
structure BlkInv (d : Mem) : Prop where
  owned : Owned (cells d) (Shape d) (fun b => bmap d b = true)
  zero : block d 0 = fun _ => 0#8

theorem shape_closed (d : Mem) : Closed (Shape d) := by
  rintro r k ks ⟨h1, h2, h3, h4⟩
  rw [List.length_cons] at h3
  exact ⟨h1, h2, by omega, fun j hj => h4 j (List.mem_cons_of_mem _ hj)⟩

theorem shape_congr {d d' : Mem} (h : ∀ m, imap d' m = imap d m) : Shape d' = Shape d := by
  funext r ks
  unfold Shape
  rw [h]

theorem blockPath_length (l : ℕ) : (blockPath l).2.length = (blockPath l).1 - 9 := by
  unfold blockPath
  split_ifs with h1 h2
  · show 0 = l - 9
    omega
  · rfl
  · rfl

theorem blockPath_shape {d : Mem} {n l : ℕ} (hn : imap d n = true) (hl : l < maxBlocks) :
    Shape d (n, (blockPath l).1) (blockPath l).2 := by
  unfold maxBlocks at hl
  refine ⟨hn, ?_, (blockPath_length l).le, ?_⟩
  · unfold blockPath
    split_ifs with h1 h2
    · show l < 12
      omega
    · show 10 < 12
      omega
    · show 11 < 12
      omega
  · unfold blockPath
    split_ifs with h1 h2
    · intro k hk; cases hk
    · intro k hk
      simp only [List.mem_singleton] at hk
      omega
    · intro k hk
      simp only [List.mem_cons, List.not_mem_nil, or_false] at hk
      omega

theorem blockPath_inj {l l' : ℕ} (h : blockPath l = blockPath l') : l = l' := by
  unfold blockPath at h
  split_ifs at h <;> simp only [Prod.mk.injEq, List.cons.injEq, and_true, true_and] at h <;> omega

theorem blockPath_eq_of_fst {l l' : ℕ} {n n' : ℕ}
    (h : (n, (blockPath l).1) = (n', (blockPath l').1) ∧ (blockPath l).2 = (blockPath l').2) :
    n = n' ∧ l = l' := by
  obtain ⟨h1, h2⟩ := h
  simp only [Prod.mk.injEq] at h1
  exact ⟨h1.1, blockPath_inj (Prod.ext h1.2 h2)⟩

theorem pblk_of_ge (d : Mem) (n : ℕ) {l : ℕ} (hl : maxBlocks ≤ l) : pblk d n l = 0 := by
  unfold maxBlocks at hl
  have hp : blockPath l = (11, [(l - 1034) % 1024, (l - 1034) / 1024]) := by
    unfold blockPath
    rw [if_neg (by omega), if_neg (by omega)]
  unfold pblk
  rw [hp]
  apply ref_cons_of_eq
  show ref (cells d) (n, 11) [(l - 1034) / 1024] = 0
  rw [ref]
  split_ifs
  · rfl
  · show idx d _ _ = 0
    unfold idx
    rw [if_neg (by omega)]

/-- The pointers on the way to logical block `l` of inode `n` are block numbers. -/
def PathOk (d : Mem) (n l : ℕ) : Prop :=
  ∀ ks, ks <:+ (blockPath l).2 → ref (cells d) (n, (blockPath l).1) ks < 131072

theorem PathOk.pblk_lt {d : Mem} {n l : ℕ} (h : PathOk d n l) : pblk d n l < 131072 :=
  h _ (List.suffix_refl _)

theorem shape_suffix {d : Mem} {r : ℕ × ℕ} {ks js : List ℕ} (h : ks <:+ js) (hp : Shape d r js) :
    Shape d r ks := by
  obtain ⟨h1, h2, h3, h4⟩ := hp
  have := h.length_le
  exact ⟨h1, h2, by omega, fun k hk => h4 k (h.subset hk)⟩

section Inv

variable {d : Mem} (h : BlkInv d)

include h

theorem BlkInv.bmap_zero : bmap d 0 = true := (h.owned.used_iff 0).mpr (Or.inl rfl)

theorem BlkInv.ref_lt {r : ℕ × ℕ} {ks : List ℕ} (hp : Shape d r ks) : ref (cells d) r ks < 131072 :=
  bmap_lt (h.owned.used_ref hp)

theorem BlkInv.pblk_lt {n : ℕ} (hn : imap d n = true) (l : ℕ) : pblk d n l < 131072 := by
  by_cases hl : l < maxBlocks
  · exact h.ref_lt (blockPath_shape hn hl)
  · rw [pblk_of_ge d n (by omega)]; omega

/-- No two logical blocks share a block. -/
theorem BlkInv.pblk_inj {n m l k : ℕ} (hn : imap d n = true) (hm : imap d m = true)
    (h0 : pblk d n l ≠ 0) (e : pblk d n l = pblk d m k) : n = m ∧ l = k := by
  have hl : l < maxBlocks := by
    by_contra hl
    exact h0 (pblk_of_ge d n (by omega))
  have hk : k < maxBlocks := by
    by_contra hk
    exact h0 (e.trans (pblk_of_ge d m (by omega)))
  exact blockPath_eq_of_fst (h.owned.inj (blockPath_shape hn hl) (blockPath_shape hm hk) e h0)

theorem BlkInv.pathOk {n l : ℕ} (hn : imap d n = true) (hl : l < maxBlocks) : PathOk d n l :=
  fun _ hks => h.ref_lt (shape_suffix hks (blockPath_shape hn hl))

end Inv

theorem idx_congr {d d' : Mem} {b : ℕ} (h : block d' b = block d b) (k : ℕ) :
    idx d' b k = idx d b k := by
  unfold idx; rw [h]

theorem idx_of_zero {d : Mem} {b : ℕ} (h : block d b = fun _ => 0#8) (k : ℕ) : idx d b k = 0 := by
  unfold idx
  rw [h]
  split_ifs
  · rfl
  · rfl

theorem idx_putBlock_self (d t : Mem) (b o : ℕ) {k : ℕ} (hk : k < 1024) :
    idx (putBlock d b t o) b k = word t (o + 4 * k) := by
  unfold idx
  rw [if_pos hk]
  exact word_congr fun i hi => by
    rw [block_putBlock_self _ _ _ _ (by omega), Nat.add_assoc]

/-! ## Filling one cell -/

/-- The cell of path `(r, ks)` is filled: it was empty and now holds a fresh block, or nothing
happened to the pointers. Data blocks keep their contents, and only inode `r.1` may be rewritten. -/
structure Fill (r : ℕ × ℕ) (ks : List ℕ) (d d' : Mem) : Prop where
  inv : BlkInv d'
  imap : ∀ m, imap d' m = imap d m
  sb : SbOn d → SbOn d'
  inode_ne : ∀ m ≠ r.1, inode d' m = inode d m
  ref_ne : ∀ r' ks', Shape d r' ks' → ¬ (r' = r ∧ ks' = ks) →
    ref (cells d') r' ks' = ref (cells d) r' ks'
  ref_keep : ref (cells d) r ks ≠ 0 → ref (cells d') r ks = ref (cells d) r ks
  filled : ref (cells d') r ks ≠ 0
  data : ∀ n l, Fs.imap d n = true → pblk d n l ≠ 0 →
    block d' (pblk d n l) = block d (pblk d n l)
  free : ∀ b, bmap d' b = false → bmap d b = false ∧ block d' b = block d b

theorem Fill.rfl' {r : ℕ × ℕ} {ks : List ℕ} {d : Mem} (h : BlkInv d)
    (h0 : ref (cells d) r ks ≠ 0) : Fill r ks d d :=
  ⟨h, fun _ => rfl, id, fun _ _ => rfl, fun _ _ _ _ => rfl, fun _ => rfl, h0, fun _ _ _ _ => rfl,
    fun _ hb => ⟨hb, rfl⟩⟩

/-- Filling an empty pointer of an inode. -/
theorem Fill.root {d d' : Mem} {n i b : ℕ} (h : BlkInv d) (hp : Shape d (n, i) [])
    (h0 : (inode d n).ptr i = 0) (hb : bmap d b = false) (hm : ∀ m, Fs.imap d' m = Fs.imap d m)
    (hu : ∀ c, bmap d' c = (decide (c = b) || bmap d c)) (hsb : SbOn d → SbOn d')
    (hne : ∀ m ≠ n, inode d' m = inode d m)
    (hn : ∀ j < 12, (inode d' n).ptr j = if j = i then b else (inode d n).ptr j)
    (hblk : ∀ c ≠ b, block d' c = block d c) (hz : 10 ≤ i → block d' b = fun _ => 0#8) :
    Fill (n, i) [] d d' ∧ ref (cells d') (n, i) [] = b := by
  have hb0 : b ≠ 0 := by rintro rfl; rw [h.bmap_zero] at hb; cases hb
  have hnb : ¬ bmap d b = true := by rw [hb]; simp
  have hr : ∀ r ks, Shape d r ks →
      ref (cells d') r ks = if r = (n, i) ∧ ks = [] then b else ref (cells d) r ks := by
    refine ref_setRoot (shape_closed d) hb0 h0 ?_ ?_ ?_
    · rintro ⟨m, j⟩ ⟨-, hj, -, -⟩
      show (inode d' m).ptr j = if (m, j) = (n, i) then b else (inode d m).ptr j
      by_cases e : m = n
      · subst e
        rw [hn j hj]
        simp only [Prod.mk.injEq, true_and]
      · rw [hne m e, if_neg (by simp [e])]
    · intro r k ks hs _
      exact idx_congr (hblk _ (h.owned.ref_ne hnb (shape_closed d _ _ _ hs))) k
    · rintro k ⟨-, -, h3, -⟩
      simp only [List.length_cons, List.length_nil] at h3
      exact idx_of_zero (hz (by omega)) k
  have hO : Owned (cells d') (Shape d) (fun c => bmap d' c = true) :=
    h.owned.assign hp hb0 hnb h0 (fun c => by rw [hu]; simp) hr
  rw [← shape_congr hm] at hO
  have hb' : ref (cells d') (n, i) [] = b := by rw [hr _ _ hp, if_pos ⟨rfl, rfl⟩]
  refine ⟨⟨⟨hO, (hblk 0 hb0.symm).trans h.zero⟩, hm, hsb, hne, ?_, ?_, by rwa [hb'], ?_, fun c hc => ?_⟩, hb'⟩
  · intro r' ks' hs hne'
    rw [hr _ _ hs, if_neg hne']
  · intro hk
    exact absurd h0 hk
  · intro m l hm' _
    refine hblk _ ?_
    intro e
    by_cases hl : l < maxBlocks
    · exact h.owned.ref_ne hnb (blockPath_shape hm' hl) e
    · rw [pblk_of_ge d m (by omega)] at e
      exact hb0 e.symm
  · rw [hu, Bool.or_eq_false_iff] at hc
    exact ⟨hc.2, hblk c (of_decide_eq_false hc.1)⟩

/-- Filling an empty word of an index block. -/
theorem Fill.word {d d' : Mem} {r : ℕ × ℕ} {k : ℕ} {ks : List ℕ} {b : ℕ} (h : BlkInv d)
    (hp : Shape d r (k :: ks)) (hB : ref (cells d) r ks ≠ 0)
    (h0 : idx d (ref (cells d) r ks) k = 0) (hb : bmap d b = false)
    (hm : ∀ m, Fs.imap d' m = Fs.imap d m)
    (hu : ∀ c, bmap d' c = (decide (c = b) || bmap d c)) (hsb : SbOn d → SbOn d')
    (hi : ∀ m, inode d' m = inode d m)
    (hblk : ∀ c, c ≠ b → c ≠ ref (cells d) r ks → block d' c = block d c)
    (hidx : ∀ j < 1024, idx d' (ref (cells d) r ks) j =
      if j = k then b else idx d (ref (cells d) r ks) j)
    (hz : ks.length + 1 < r.2 - 9 → block d' b = fun _ => 0#8) :
    Fill r (k :: ks) d d' ∧ ref (cells d') r (k :: ks) = b := by
  have hb0 : b ≠ 0 := by rintro rfl; rw [h.bmap_zero] at hb; cases hb
  have hnb : ¬ bmap d b = true := by rw [hb]; simp
  have hp' := shape_closed d _ _ _ hp
  have h00 : ref (cells d) r (k :: ks) = 0 := by rw [ref_cons_of_ne hB]; exact h0
  have hr : ∀ r' ks', Shape d r' ks' →
      ref (cells d') r' ks' = if r' = r ∧ ks' = k :: ks then b else ref (cells d) r' ks' := by
    refine ref_setWord (shape_closed d) hb0 hB h0 ?_ ?_ ?_ ?_
    · intro r' _
      show (inode d' r'.1).ptr r'.2 = (inode d r'.1).ptr r'.2
      rw [hi]
    · show idx d' _ _ = b
      rw [hidx k (hp.2.2.2 k (List.mem_cons_self ..)), if_pos rfl]
    · intro r' k' ks' hs hne hn
      show idx d' _ _ = idx d _ _
      have hs' := shape_closed d _ _ _ hs
      by_cases e : ref (cells d) r' ks' = ref (cells d) r ks
      · obtain ⟨rfl, rfl⟩ := h.owned.inj hs' hp' e hne
        rw [hidx k' (hs.2.2.2 k' (List.mem_cons_self ..)), if_neg]
        rintro rfl
        exact hn ⟨rfl, rfl, rfl⟩
      · exact idx_congr (hblk _ (h.owned.ref_ne hnb hs') e) k'
    · rintro j ⟨-, -, h3, -⟩
      simp only [List.length_cons] at h3
      exact idx_of_zero (hz (by omega)) j
  have hO : Owned (cells d') (Shape d) (fun c => bmap d' c = true) :=
    h.owned.assign hp hb0 hnb h00 (fun c => by rw [hu]; simp) hr
  rw [← shape_congr hm] at hO
  have hb' : ref (cells d') r (k :: ks) = b := by rw [hr _ _ hp, if_pos ⟨rfl, rfl⟩]
  refine ⟨⟨⟨hO, (hblk 0 hb0.symm hB.symm).trans h.zero⟩, hm, hsb, fun m _ => hi m, ?_, ?_,
    by rwa [hb'], ?_, fun c hc => ?_⟩, hb'⟩
  · intro r' ks' hs hne'
    rw [hr _ _ hs, if_neg hne']
  · intro hk
    exact absurd h00 hk
  · intro m l hm' hpb
    have hl : l < maxBlocks := by
      by_contra hl
      exact hpb (pblk_of_ge d m (by omega))
    have hsl := blockPath_shape hm' hl
    refine hblk _ (h.owned.ref_ne hnb hsl) ?_
    -- the index block is not a data block: its path can be continued
    intro e
    obtain ⟨e1, e2⟩ := h.owned.inj hsl hp' e hpb
    have h3 := hp.2.2.1
    rw [← e1, ← e2, List.length_cons, blockPath_length] at h3
    simp only at h3
    omega
  · rw [hu, Bool.or_eq_false_iff] at hc
    refine ⟨hc.2, hblk c (of_decide_eq_false hc.1) ?_⟩
    rintro rfl
    have hused := h.owned.used_ref hp'
    rw [hc.2] at hused
    cases hused

/-! ## Allocation failures are remembered -/

theorem allocIn_failed {s : State} {f : Superblock → ℕ} {n : ℕ}
    (h : (allocIn s f n).2.allocFailed = false) : s.allocFailed = false := by
  unfold allocIn at h
  by_cases hv : s.sbValid = true
  · rw [if_pos hv] at h
    dsimp only at h
    split at h
    · exact h
    · cases h
  · rw [if_neg hv] at h
    dsimp only at h
    split at h
    · exact h
    · cases h

theorem allocBlock_failed {s : State} (h : (allocBlock s).2.allocFailed = false) :
    s.allocFailed = false := allocIn_failed h

@[simp] theorem readBlock_allocFailed (s : State) (b o : ℕ) :
    (readBlock s b o).allocFailed = s.allocFailed := rfl

@[simp] theorem writeBlock_allocFailed (s : State) (b o : ℕ) :
    (writeBlock s b o).allocFailed = s.allocFailed := rfl

@[simp] theorem writeInode_allocFailed (s : State) (n : ℕ) (node : Inode) :
    (writeInode s n node).allocFailed = s.allocFailed := rfl

theorem indexEntry_failed {s : State} {b k : ℕ} {a : Bool}
    (h : (indexEntry s b k a).2.allocFailed = false) : s.allocFailed = false := by
  unfold indexEntry at h
  dsimp only at h
  split_ifs at h
  · exact allocBlock_failed (s := readBlock s b 0) h
  · rw [writeBlock_allocFailed] at h
    exact allocBlock_failed (s := readBlock s b 0) h
  · exact h

theorem allocIndexBlock_failed {s : State} {o : ℕ}
    (h : (allocIndexBlock s o).2.allocFailed = false) : s.allocFailed = false := by
  unfold allocIndexBlock at h
  dsimp only at h
  split_ifs at h
  · exact allocBlock_failed h
  · rw [writeBlock_allocFailed] at h
    exact allocBlock_failed h

theorem doubleEntry_failed {s : State} {b i j : ℕ} {a : Bool}
    (h : (doubleEntry s b i j a).2.allocFailed = false) : s.allocFailed = false := by
  unfold doubleEntry at h
  dsimp only at h
  split_ifs at h
  · exact allocIndexBlock_failed (s := readBlock s b 0) h
  · have h1 := indexEntry_failed h
    rw [writeBlock_allocFailed] at h1
    exact allocIndexBlock_failed (s := readBlock s b 0) h1
  · exact h
  · have h1 := indexEntry_failed h
    rwa [readBlock_allocFailed] at h1

theorem getPhysicalBlockId_failed {s : State} {node : Inode} {n l : ℕ} {a : Bool}
    (h : (getPhysicalBlockId s node n l a).2.2.allocFailed = false) : s.allocFailed = false := by
  unfold getPhysicalBlockId at h
  dsimp only at h
  split_ifs at h
  · exact allocBlock_failed h
  · rw [writeInode_allocFailed] at h
    exact allocBlock_failed h
  · exact h
  · exact allocIndexBlock_failed h
  · have h1 := indexEntry_failed h
    rw [writeInode_allocFailed] at h1
    exact allocIndexBlock_failed h1
  · exact h
  · exact indexEntry_failed h
  · exact allocIndexBlock_failed h
  · have h1 := doubleEntry_failed h
    rw [writeInode_allocFailed] at h1
    exact allocIndexBlock_failed h1
  · exact h
  · exact doubleEntry_failed h
  · exact h

end RiscvKernel.Fs
