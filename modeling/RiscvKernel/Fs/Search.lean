import RiscvKernel.Fs.Space

/-!
# Searching and appending

The search of a directory visits its logical blocks in order and stops at the first entry that
passes a test (`firstSlot`). `append_dentry` does not look at the type of the inode it is given, so
its outcomes are stated for any inode `p`: the new entry goes to the first free slot, or to a new
block when none is free, or there is no room for a block. The last outcome is lost: `append_dentry`
returns nothing.
-/

namespace RiscvKernel.Fs

open Lib Lib.Forest

/-! ## Searching -/

theorem findDentry_some {p : ℕ → Bool} {j : ℕ} (h : findDentry p = some j) :
    j < 204 ∧ p (20 * j) = true := by
  unfold findDentry at h
  obtain ⟨i, -, hi, hs, -⟩ := scan_eq_some.mp h
  split_ifs at hs with hp
  cases hs
  simp only [dentriesPerBlock, blockSize, dentrySize] at hi
  exact ⟨by omega, hp⟩

theorem findDentry_none {p : ℕ → Bool} (h : findDentry p = none) {j : ℕ} (hj : j < 204) :
    ¬ p (20 * j) = true := by
  intro hp
  unfold findDentry at h
  have := scan_eq_none.mp h j (by omega) (by
    simp only [dentriesPerBlock, blockSize, dentrySize]; omega)
  simp only [dentrySize, hp, if_true] at this
  cases this

/-- The first slot of the first `k` logical blocks of `p` whose entry satisfies `P`; holes are
skipped. -/
def firstSlot (d : Mem) (p k : ℕ) (P : Mem → ℕ → Bool) : Option (ℕ × ℕ) :=
  scan (fun l => if pblk d p l = 0 then none else (findDentry (P (fileBlock d p l))).map (l, ·)) 0 k

theorem firstSlot_some {d : Mem} {p k l j : ℕ} {P : Mem → ℕ → Bool}
    (h : firstSlot d p k P = some (l, j)) :
    l < k ∧ pblk d p l ≠ 0 ∧ j < 204 ∧ P (fileBlock d p l) (20 * j) = true := by
  obtain ⟨i, -, hi, h1, -⟩ := scan_eq_some.mp h
  split_ifs at h1 with h0
  obtain ⟨j', hj, e⟩ := Option.map_eq_some_iff.mp h1
  cases e
  exact ⟨by omega, h0, findDentry_some hj⟩

theorem firstSlot_none {d : Mem} {p k : ℕ} {P : Mem → ℕ → Bool} (h : firstSlot d p k P = none)
    {l j : ℕ} (hl : l < k) (h0 : pblk d p l ≠ 0) (hj : j < 204) :
    ¬ P (fileBlock d p l) (20 * j) = true := by
  have h1 := scan_eq_none.mp h l (by omega) (by omega)
  rw [if_neg h0, Option.map_eq_none_iff] at h1
  exact findDentry_none h1 hj

/-- The search through the blocks of a directory finds the first slot, and leaves its block in
`TEMP_BUF`. The test `P` does not look beyond the block. -/
theorem searchDentry_eq {s : State} {p : ℕ} {node : Inode}
    (hnode : node.ptr = (inode s.disk p).ptr) {k : ℕ} (hk : k ≤ maxBlocks)
    (hpath : ∀ l < k, PathOk s.disk p l) {P : Mem → ℕ → Bool}
    (hP : ∀ l < k, pblk s.disk p l ≠ 0 → ∀ j < 204, ∀ t : Mem,
      (∀ i < 4096, t i = fileBlock s.disk p l i) →
        P t (20 * j) = P (fileBlock s.disk p l) (20 * j)) :
    ∃ t, searchDentry P p 0 k node s =
        ((firstSlot s.disk p k P).map fun σ => (pblk s.disk p σ.1, σ.2), node, s.put s.disk t) ∧
      ∀ l j, firstSlot s.disk p k P = some (l, j) → ∀ i < 4096, t i = fileBlock s.disk p l i := by
  unfold firstSlot
  generalize hf : (fun l => if pblk s.disk p l = 0 then none
    else (findDentry (P (fileBlock s.disk p l))).map (l, ·)) = f
  have key : ∀ n i t, i + n = k → ∃ t', searchDentry P p i n node (s.put s.disk t) =
        ((scan f i n).map fun σ => (pblk s.disk p σ.1, σ.2), node, s.put s.disk t') ∧
      ∀ l j, scan f i n = some (l, j) → ∀ x < 4096, t' x = fileBlock s.disk p l x := by
    intro n
    induction n with
    | zero => exact fun i t _ => ⟨t, rfl, fun l j e => by cases e⟩
    | succ n ih =>
      intro i t hi
      have hlt := (hpath i (by omega)).pblk_lt
      have hfi := congrFun hf i
      obtain ⟨t1, e1⟩ := getPhysicalBlockId_false (s := s.put s.disk t) (hpath i (by omega)) hnode
        (show i < maxBlocks by omega)
      simp only [State.put_disk, State.put_put] at e1
      rw [searchDentry, scan, e1, ← hfi]
      by_cases h0 : pblk s.disk p i = 0
      · simp only [h0, or_true, if_true]
        exact ih (i + 1) t1 (by omega)
      -- the block is in `TEMP_BUF` when its entries are tested
      obtain ⟨t2, ht2, e2⟩ : ∃ t2, (∀ x < 4096, t2 x = fileBlock s.disk p i x) ∧
          readBlock (s.put s.disk t1) (pblk s.disk p i) 0 = s.put s.disk t2 := by
        refine ⟨_, fun x hx => ?_, rfl⟩
        have := readBlock_temp (s.put s.disk t1) hlt (o := 0) hx
        rwa [Nat.zero_add] at this
      have hfd : findDentry (P t2) = findDentry (P (fileBlock s.disk p i)) := by
        refine scan_congr fun j _ hj => ?_
        simp only [dentriesPerBlock, blockSize, dentrySize] at hj ⊢
        rw [hP i (by omega) h0 j (by omega) t2 ht2]
      simp only [ne_neg1 hlt, h0, or_self, if_false, e2, State.put_temp, hfd]
      cases hd : findDentry (P (fileBlock s.disk p i)) with
      | none => exact ih (i + 1) t2 (by omega)
      | some j =>
        refine ⟨t2, rfl, fun l j' e => ?_⟩
        cases e
        exact ht2
  obtain ⟨t, e, ht⟩ := key k 0 s.temp (Nat.zero_add k)
  exact ⟨t, by rw [← e, State.put_self], ht⟩

/-! ## Appending -/

/-- The first free slot of the blocks of `p`. -/
def freeSlot (d : Mem) (p : ℕ) : Option (ℕ × ℕ) := firstSlot d p (numBlocks (inode d p)) isFree

/-- The disk with the 20 bytes of slot `σ` of `p` replaced by `dm`. -/
def writeSlot (d : Mem) (p : ℕ) (σ : ℕ × ℕ) (dm : Mem) : Mem :=
  blit d (blkBase + 4096 * pblk d p σ.1 + 20 * σ.2) dm 0 20

/-- Rewriting the block of a slot, with the slot replaced, writes the slot. -/
theorem putBlock_writeSlot {d t : Mem} {p l j : ℕ} (hj : j < 204)
    (ht : ∀ i < 4096, t i = fileBlock d p l i) (dm : Mem) :
    putBlock d (pblk d p l) (blit t (20 * j) dm 0 20) 0 = writeSlot d p (l, j) dm := by
  funext a
  unfold putBlock writeSlot
  dsimp only
  by_cases ha : blkBase + 4096 * pblk d p l ≤ a ∧ a < blkBase + 4096 * pblk d p l + 4096
  · obtain ⟨i, rfl⟩ := Nat.exists_eq_add_of_le ha.1
    rw [blit_in (by omega), Nat.zero_add]
    by_cases hi : 20 * j ≤ i ∧ i < 20 * j + 20
    · rw [blit_in_of_le hi.1 hi.2, blit_in_of_le (by omega) (by omega)]
      congr 1
      omega
    · rw [blit_out (by omega), blit_out (by omega), ht i (by omega)]
      exact if_pos (by omega)
  · rw [blit_out (by omega), blit_out (by omega)]

section Append

variable {s : State} {p : ℕ} {node : Inode} (hptr : node.ptr = (inode s.disk p).ptr)
  (hsize : node.size = (inode s.disk p).size)

include hsize in
theorem numBlocks_congr : numBlocks node = numBlocks (inode s.disk p) := by
  unfold numBlocks
  rw [hsize]

include hptr hsize

/-- The search of `append_dentry`. -/
theorem searchFree (hk : numBlocks (inode s.disk p) ≤ maxBlocks)
    (hpath : ∀ l < numBlocks (inode s.disk p), PathOk s.disk p l) :
    ∃ t, searchDentry isFree p 0 (numBlocks node) node s =
        ((freeSlot s.disk p).map fun σ => (pblk s.disk p σ.1, σ.2), node, s.put s.disk t) ∧
      ∀ l j, freeSlot s.disk p = some (l, j) → ∀ i < 4096, t i = fileBlock s.disk p l i := by
  rw [numBlocks_congr hsize]
  refine searchDentry_eq hptr hk hpath fun l hl _ j hj t ht => ?_
  unfold isFree
  rw [ht _ (by omega)]

/-- A free slot is overwritten. -/
theorem appendDentry_slot (hk : numBlocks (inode s.disk p) ≤ maxBlocks)
    (hpath : ∀ l < numBlocks (inode s.disk p), PathOk s.disk p l) {l j : ℕ}
    (hfs : freeSlot s.disk p = some (l, j)) (dm : Mem) :
    ∃ t, appendDentry s node p dm = (node, s.put (writeSlot s.disk p (l, j) dm) t) := by
  obtain ⟨t, e, ht⟩ := searchFree hptr hsize hk hpath
  obtain ⟨hl, -, hj, -⟩ := firstSlot_some hfs
  have hb := putBlock_writeSlot hj (ht l j hfs) dm
  rw [hfs, Option.map_some] at e
  unfold appendDentry
  simp only [e, State.setTemp_eq, State.put_temp, State.put_disk, State.put_put,
    writeBlock_eq _ (hpath l hl).pblk_lt, dentrySize, hb]
  exact ⟨_, rfl⟩

variable (hs : SbOk s) (h : BlkInv s.disk) (hp : imap s.disk p = true)
  (hk : numBlocks (inode s.disk p) < maxBlocks) (hno : freeSlot s.disk p = none)

include hs h hp hk hno

/-- No slot is free, but there are blocks: the inode grows by a block with the entry in it. -/
theorem appendDentry_room
    (hr : need s.disk p (numBlocks (inode s.disk p)) ≤ freeCount s.disk) (dm : Mem) :
    ∃ d t u node', appendDentry s node p dm = (node'.setSize (node'.size + blockSize),
        s.put (putBlock d (pblk d p (numBlocks (inode s.disk p))) u 0) t) ∧
      (∀ i < 20, u i = dm i) ∧ (∀ i, 20 ≤ i → i < 4096 → u i = 0#8) ∧
      Grow p (numBlocks (inode s.disk p)) s.disk d ∧
      pblk d p (numBlocks (inode s.disk p)) ≠ 0 ∧ NodeOf node node' p d ∧
      freeCount d + need s.disk p (numBlocks (inode s.disk p)) = freeCount s.disk := by
  obtain ⟨t, e, -⟩ := searchFree hptr hsize hk.le fun l hl => h.pathOk hp (by omega)
  rw [hno, Option.map_none] at e
  obtain ⟨d, t', node', e1, hG, h0, hN, -, hc⟩ := getPhysicalBlockId_room
    (s := s.put s.disk t) (hs.put hs.on t) h hp hptr hk hr
  have hlt := hG.inv.pblk_lt (show imap d p = true from (hG.imap p).trans hp)
    (numBlocks (inode s.disk p))
  simp only [State.put_disk, State.put_put] at e1 hG hc
  rw [numBlocks_congr hsize] at e
  unfold appendDentry
  simp only [numBlocks_congr hsize, e, e1, ne_neg1 hlt, h0, or_self, if_false, State.setTemp_eq, State.put_temp,
    State.put_disk, State.put_put, writeBlock_eq _ hlt]
  refine ⟨d, _, _, node', rfl, fun i hi => ?_, fun i h1 h2 => ?_, hG, h0, hN, hc⟩
  · rw [blit_in_of_le (by omega) (by simp only [dentrySize]; omega), Nat.zero_add, Nat.sub_zero]
  · rw [blit_out (by simp only [dentrySize]; omega),
      fill_in (by omega) (by simp only [blockSize]; omega)]

/-- No slot is free, and there are too few blocks: what could be allocated stays allocated. -/
theorem appendDentry_short
    (hr : freeCount s.disk < need s.disk p (numBlocks (inode s.disk p))) (dm : Mem) :
    ∃ d t node', appendDentry s node p dm = (node', (s.put d t).fail) ∧ freeCount d = 0 ∧
      Grow p (numBlocks (inode s.disk p)) s.disk d ∧
      pblk d p (numBlocks (inode s.disk p)) = 0 ∧ (freeCount s.disk = 0 → d = s.disk) ∧
      (((inode d p).ptr (blockPath (numBlocks (inode s.disk p))).1 = 0 ∧ d = s.disk ∧
          Stale (blockPath (numBlocks (inode s.disk p))).1 node node') ∨
        ((inode d p).ptr (blockPath (numBlocks (inode s.disk p))).1 ≠ 0 ∧ NodeOf node node' p d ∧
          (inode d p = inode s.disk p ∨ inode d p = node'))) := by
  obtain ⟨t, e, -⟩ := searchFree hptr hsize hk.le fun l hl => h.pathOk hp (by omega)
  rw [hno, Option.map_none] at e
  obtain ⟨d, t', node', e1, h1⟩ := getPhysicalBlockId_short
    (s := s.put s.disk t) (hs.put hs.on t) h hp hptr hk hr
  simp only [State.put_disk, State.put_put] at e1 h1
  rw [numBlocks_congr hsize] at e
  unfold appendDentry
  simp only [numBlocks_congr hsize, e, e1, true_or, if_true]
  exact ⟨d, t', node', rfl, h1⟩

end Append

end RiscvKernel.Fs
