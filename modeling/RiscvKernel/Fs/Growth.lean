import RiscvKernel.Fs.BlockMap

/-!
# Growth of an inode

What `getPhysicalBlockId` does to the forest of block pointers. Without `alloc` it reads the block
number and changes nothing but `TEMP_BUF` (`getPhysicalBlockId_false`). With `alloc`, unless an
allocation fails, it fills the cells on the way to one logical block; for everything else on the
disk this is a growth of one inode at one logical block (`getPhysicalBlockId_grow`).
-/

namespace RiscvKernel.Fs

open Lib Lib.Forest

/-! ## Growth -/

/-- Block `b` was free and still has the contents it had. -/
def Laid (d d' : Mem) (b : ℕ) : Prop := bmap d b = false ∧ block d' b = block d b

/-- Inode `n` may have got a block for its logical block `l`; the other logical blocks of all
marked inodes and the contents of all their blocks are as before. -/
structure Grow (n l : ℕ) (d d' : Mem) : Prop where
  inv : BlkInv d'
  imap : ∀ m, imap d' m = imap d m
  sb : SbOn d → SbOn d'
  inode_ne : ∀ m ≠ n, inode d' m = inode d m
  pblk_ne : ∀ m k, Fs.imap d m = true → ¬ (m = n ∧ k = l) → pblk d' m k = pblk d m k
  pblk_keep : pblk d n l ≠ 0 → pblk d' n l = pblk d n l
  data : ∀ m k, Fs.imap d m = true → pblk d m k ≠ 0 → block d' (pblk d m k) = block d (pblk d m k)
  free : ∀ b, bmap d' b = false → Laid d d' b
  fresh : pblk d n l = 0 → pblk d' n l ≠ 0 → Laid d d' (pblk d' n l)

section Grow

variable {n l : ℕ} {d d' d'' : Mem}

theorem Grow.refl (h : BlkInv d) (n l : ℕ) : Grow n l d d :=
  ⟨h, fun _ => rfl, id, fun _ _ => rfl, fun _ _ _ _ => rfl, fun _ => rfl, fun _ _ _ _ => rfl,
    fun _ hb => ⟨hb, rfl⟩, fun h0 h1 => absurd h0 h1⟩

/-- A block that is there stays in its place. -/
theorem Grow.pblk_eq (h : Grow n l d d') {m k : ℕ} (hm : Fs.imap d m = true)
    (h0 : pblk d m k ≠ 0) : pblk d' m k = pblk d m k := by
  by_cases e : m = n ∧ k = l
  · obtain ⟨rfl, rfl⟩ := e
    exact h.pblk_keep h0
  · exact h.pblk_ne m k hm e

theorem Grow.trans (hn : Fs.imap d n = true) (h : Grow n l d d') (h' : Grow n l d' d'') :
    Grow n l d d'' where
  inv := h'.inv
  imap m := (h'.imap m).trans (h.imap m)
  sb := h'.sb ∘ h.sb
  inode_ne m hm := (h'.inode_ne m hm).trans (h.inode_ne m hm)
  pblk_ne m k hm e := by
    rw [h'.pblk_ne m k (by rwa [h.imap]) e, h.pblk_ne m k hm e]
  pblk_keep h0 := by
    have e := h.pblk_keep h0
    rw [h'.pblk_keep (by rwa [e]), e]
  data m k hm h0 := by
    have e := h.pblk_eq hm h0
    have := h'.data m k (by rwa [h.imap]) (by rwa [e])
    rw [e] at this
    rw [this, h.data m k hm h0]
  free b hb := by
    obtain ⟨h1, h2⟩ := h'.free b hb
    obtain ⟨h3, h4⟩ := h.free b h1
    exact ⟨h3, h2.trans h4⟩
  fresh h0 h1 := by
    by_cases hm : pblk d' n l = 0
    · obtain ⟨h2, h3⟩ := h'.fresh hm h1
      obtain ⟨h4, h5⟩ := h.free _ h2
      exact ⟨h4, h3.trans h5⟩
    · have hn' : Fs.imap d' n = true := by rwa [h.imap]
      obtain ⟨h2, h3⟩ := h.fresh h0 hm
      rw [h'.pblk_keep hm]
      exact ⟨h2, (h'.data n l hn' hm).trans h3⟩

/-- Filling a cell that belongs to no other logical block is a growth. -/
theorem Fill.grow_of (hn : Fs.imap d n = true) {i : ℕ} {ks : List ℕ} (h : Fill (n, i) ks d d')
    (hl : ∀ k, blockPath k = (i, ks) → k = l)
    (hfresh : pblk d n l = 0 → pblk d' n l ≠ 0 → Laid d d' (pblk d' n l)) : Grow n l d d' where
  inv := h.inv
  imap := h.imap
  sb := h.sb
  inode_ne := h.inode_ne
  pblk_ne m k hm e := by
    by_cases hk : k < maxBlocks
    · refine h.ref_ne _ _ (blockPath_shape hm hk) ?_
      rintro ⟨e1, e2⟩
      simp only [Prod.mk.injEq] at e1
      exact e ⟨e1.1, hl k (Prod.ext e1.2 e2)⟩
    · rw [pblk_of_ge d m (by omega), pblk_of_ge d' m (by omega)]
  pblk_keep h0 := by
    by_cases e : blockPath l = (i, ks)
    · unfold pblk at h0 ⊢
      rw [e] at h0 ⊢
      exact h.ref_keep h0
    · have hk : l < maxBlocks := by
        by_contra hk
        exact h0 (pblk_of_ge d n (by omega))
      refine h.ref_ne _ _ (blockPath_shape hn hk) ?_
      rintro ⟨e1, e2⟩
      simp only [Prod.mk.injEq, true_and] at e1
      exact e (Prod.ext e1 e2)
  data := h.data
  free := h.free
  fresh := hfresh

/-- Filling the cell of a logical block with a block that is not written to. -/
theorem Fill.grow (hn : Fs.imap d n = true) {i : ℕ} {ks : List ℕ} (h : Fill (n, i) ks d d')
    (hl : blockPath l = (i, ks))
    (hfresh : ref (cells d) (n, i) ks = 0 → Laid d d' (ref (cells d') (n, i) ks)) : Grow n l d d' := by
  refine h.grow_of hn (fun k hk => blockPath_inj (hk.trans hl.symm)) fun h0 _ => ?_
  unfold pblk at h0 ⊢
  rw [hl] at h0 ⊢
  exact hfresh h0

/-- No logical block ends at a pointer to an index block. -/
theorem path_index {i : ℕ} {ks : List ℕ} (hks : ks.length ≠ i - 9) (l k : ℕ)
    (h : blockPath k = (i, ks)) : k = l := by
  have hlen := blockPath_length k
  rw [h] at hlen
  exact absurd hlen hks

/-- Filling a pointer to an index block. -/
theorem Fill.grow_index (hn : Fs.imap d n = true) {i : ℕ} {ks : List ℕ} (h : Fill (n, i) ks d d')
    (hks : ks.length ≠ i - 9) (l : ℕ) : Grow n l d d' := by
  refine h.grow_of hn (path_index hks l) fun h0 h1 => absurd h0 ?_
  have hl : l < maxBlocks := by
    by_contra hl
    exact h1 (pblk_of_ge d' n (by omega))
  have e : pblk d' n l = pblk d n l := by
    refine h.ref_ne _ _ (blockPath_shape hn hl) fun ⟨e1, e2⟩ => ?_
    have hlen := blockPath_length l
    rw [e2, show (blockPath l).1 = i from congrArg Prod.snd e1] at hlen
    exact hks hlen
  rwa [← e]

end Grow

/-! ## The index steps -/

/-- Reading an index entry without `alloc`. -/
theorem indexEntry_false (s : State) {b k : ℕ} (hb : b < 131072) (hk : k < 1024) :
    indexEntry s b k false = (idx s.disk b k, readBlock s b 0) := by
  have hw := readBlock_word s hb 0 hk
  rw [Nat.zero_add] at hw
  unfold indexEntry
  simp only [hw, Bool.false_eq_true, and_false, if_false]

/-- The effect of marking a block and of writing another one, as far as the observers go. -/
theorem observe_mark_write {d : Mem} {b : ℕ} (hb : b < 131072) (c : ℕ) (t : Mem) (o : ℕ) :
    (∀ m, imap (putBlock (setBit d bmapBase b) c t o) m = imap d m) ∧
    (∀ e, bmap (putBlock (setBit d bmapBase b) c t o) e = (decide (e = b) || bmap d e)) ∧
    (∀ m, inode (putBlock (setBit d bmapBase b) c t o) m = inode d m) ∧
    (∀ e ≠ c, block (putBlock (setBit d bmapBase b) c t o) e = block d e) ∧
    (SbOn d → SbOn (putBlock (setBit d bmapBase b) c t o)) := by
  obtain ⟨h1, h2, h3⟩ := observe_setBmap d hb
  refine ⟨fun m => ?_, fun e => ?_, fun m => ?_, fun e he => ?_, fun h => (h3 h).putBlock _ _ _⟩
  · rw [imap_putBlock, imap_setBmap d hb]
  · rw [bmap_putBlock, bmap_setBit d hb]
  · rw [inode_putBlock, h1]
  · rw [block_putBlock_of_ne _ _ _ he, h2]

/-- With `alloc`, the last index step fills its cell. -/
theorem indexEntry_fill {s : State} (hs : SbOk s) (h : BlkInv s.disk) {r : ℕ × ℕ} {k : ℕ}
    {ks : List ℕ} (hp : Shape s.disk r (k :: ks)) (hleaf : ks.length + 1 = r.2 - 9) {B : ℕ}
    (hBe : ref (cells s.disk) r ks = B) (hB : B ≠ 0)
    (hf : (indexEntry s B k true).2.allocFailed = false) :
    ∃ d t, indexEntry s B k true = (ref (cells d) r (k :: ks), s.put d t) ∧
      Fill r (k :: ks) s.disk d ∧ (∀ m, inode d m = inode s.disk m) ∧
      (ref (cells s.disk) r (k :: ks) = 0 → Laid s.disk d (ref (cells d) r (k :: ks))) := by
  have hk : k < 1024 := hp.2.2.2 k (List.mem_cons_self ..)
  have hb : B < 131072 := hBe ▸ h.ref_lt (shape_closed _ _ _ _ hp)
  have e : ref (cells s.disk) r (k :: ks) = idx s.disk B k := by
    rw [← hBe] at hB ⊢
    exact ref_cons_of_ne hB
  have hw := readBlock_word s hb 0 hk
  rw [Nat.zero_add] at hw
  have hp1 : 4 * k + 4 ≤ 4096 := by omega
  by_cases h0 : idx s.disk B k = 0
  · have hs1 := hs.readBlock B 0
    unfold indexEntry at hf ⊢
    simp only [hw, h0, and_self, if_true] at hf ⊢
    rcases allocBlock_spec hs1 with ⟨b, hb', hfree, ha⟩ | ⟨-, ha⟩
    · have hne : b % 2 ^ 32 = b := Nat.mod_eq_of_lt (by omega)
      simp only [readBlock_disk, readBlock_put] at hfree ha
      simp only [ha, State.setTemp_eq, State.put_put, State.put_temp, State.put_disk,
        word_putWord_self, hne] at hf ⊢
      rw [if_neg (ne_neg1 hb'), writeBlock_eq _ hb]
      obtain ⟨o1, o2, o3, o4, o5⟩ := observe_mark_write (d := s.disk) hb' B
        (putWord (readBlock s B 0).temp (4 * k) b) 0
      obtain ⟨hF, hF'⟩ : Fill r (k :: ks) s.disk _ ∧ _ := by
        refine Fill.word h hp (by rwa [hBe]) (by rwa [hBe]) hfree o1 o2 o5 o3 ?_ ?_ ?_
        · intro c _ hc
          exact o4 c (by rwa [hBe] at hc)
        · intro j hj
          rw [hBe, idx_putBlock_self _ _ _ _ hj, Nat.zero_add]
          by_cases hjk : j = k
          · rw [if_pos hjk, hjk, word_putWord_self, hne]
          · have hwj := readBlock_word s hb 0 hj
            rw [Nat.zero_add] at hwj
            rw [if_neg hjk, word_putWord_of_disjoint (by omega), hwj]
        · intro hlt
          omega
      refine ⟨_, putWord (readBlock s B 0).temp (4 * k) b, ?_, hF, o3, fun _ => ?_⟩
      · rw [hF']
        rfl
      · rw [hF']
        refine ⟨hfree, o4 b ?_⟩
        rintro rfl
        have hused := h.owned.used_ref (shape_closed _ _ _ _ hp)
        rw [hBe, hfree] at hused
        cases hused
    · simp only [ha] at hf
      split_ifs at hf
      · simp at hf
      · simp at hf
  · refine ⟨s.disk, (readBlock s B 0).temp, ?_, Fill.rfl' h (by rwa [e]), fun _ => rfl,
      fun hz => absurd (e.symm.trans hz) h0⟩
    unfold indexEntry
    simp only [hw, h0, false_and, if_false, e]
    rfl

theorem block_fill_zero (d t : Mem) (b o : ℕ) :
    block (putBlock d b (fill t o 0#8 4096) o) b = fun _ => 0#8 := by
  funext i
  by_cases hi : i < 4096
  · rw [block_putBlock_self _ _ _ _ hi, fill_in (by omega) (by omega)]
  · unfold block
    rw [if_neg hi]

theorem path_leaf {i j : ℕ} (hj : j < 1024) : blockPath (1034 + 1024 * i + j) = (11, [j, i]) := by
  unfold blockPath
  rw [if_neg (by omega), if_neg (by omega), show (1034 + 1024 * i + j - 1034) % 1024 = j by omega,
    show (1034 + 1024 * i + j - 1034) / 1024 = i by omega]

/-- The first of the two steps below the double indirect pointer, when it needs a new second-level
index block: that block is filled in, and the second step finds it empty. -/
theorem doubleEntry_new {s : State} (hs : SbOk s) (h : BlkInv s.disk) {n i : ℕ}
    (hn : imap s.disk n = true) (hi : i < 1024) {B : ℕ} (hBe : (inode s.disk n).ptr 11 = B)
    (hB : B ≠ 0) (h0 : idx s.disk B i = 0) {b : ℕ} (hb : b < 131072) (hfree : bmap s.disk b = false)
    (ha : allocBlock (readBlock s B 0) =
      (b, s.put (setBit s.disk bmapBase b) (readBlock s B 0).temp)) (j : ℕ) :
    ∃ d t, doubleEntry s B i j true = indexEntry (s.put d t) b j true ∧ SbOk (s.put d t) ∧
      Fill (n, 11) [i] s.disk d ∧ ref (cells d) (n, 11) [i] = b ∧
      (∀ m, inode d m = inode s.disk m) ∧ (∀ c, bmap d c = (decide (c = b) || bmap s.disk c)) ∧
      ∀ k, idx d b k = 0 := by
  have hp' : Shape s.disk (n, 11) [i] := ⟨hn, by simp, by simp, by simp [hi]⟩
  have hb' : B < 131072 := hBe ▸ h.ref_lt (shape_closed _ _ _ _ hp')
  have hne : b % 2 ^ 32 = b := Nat.mod_eq_of_lt (by omega)
  have hw := readBlock_word s hb' 0 hi
  rw [Nat.zero_add] at hw
  have hbB : b ≠ B := by
    rintro rfl
    have hused := h.owned.used_ref (shape_closed _ _ _ _ hp')
    change bmap s.disk ((inode s.disk n).ptr 11) = true at hused
    rw [hBe] at hused
    exact Bool.false_ne_true (hfree.symm.trans hused)
  obtain ⟨o1, o2, o3, o4, o5⟩ := observe_mark_write (d := s.disk) hb b
    (fill (readBlock s B 0).temp 4096 0#8 4096) 4096
  obtain ⟨hF, hF'⟩ : Fill (n, 11) [i] s.disk (putBlock (putBlock (setBit s.disk bmapBase b) b
      (fill (readBlock s B 0).temp 4096 0#8 4096) 4096) B
      (putWord (fill (readBlock s B 0).temp 4096 0#8 4096) (4 * i) b) 0) ∧ _ := by
    have hr : ref (cells s.disk) (n, 11) [] = B := hBe
    refine Fill.word h hp' (by rwa [hr]) (by rwa [hr]) hfree (fun m => ?_) (fun c => ?_)
      (fun hsb => (o5 hsb).putBlock _ _ _) (fun m => ?_) (fun c hc hc' => ?_) (fun k hk => ?_)
      (fun _ => ?_)
    · rw [imap_putBlock, o1]
    · rw [bmap_putBlock, o2]
    · rw [inode_putBlock, o3]
    · rw [block_putBlock_of_ne _ _ _ (by rwa [hr] at hc'), o4 c hc]
    · rw [hr, idx_putBlock_self _ _ _ _ hk, Nat.zero_add]
      by_cases hki : k = i
      · rw [if_pos hki, hki, word_putWord_self, hne]
      · have hwk := readBlock_word s hb' 0 hk
        rw [Nat.zero_add] at hwk
        rw [if_neg hki, word_putWord_of_disjoint (by omega), ← hwk]
        exact word_congr fun x hx => fill_out (by omega)
    · rw [block_putBlock_of_ne _ _ _ hbB]
      exact block_fill_zero _ _ _ _
  refine ⟨_, putWord (fill (readBlock s B 0).temp 4096 0#8 4096) (4 * i) b, ?_,
    hs.put (hF.sb hs.on) _, hF, hF', fun m => ?_, fun c => ?_, fun k => ?_⟩
  · unfold doubleEntry allocIndexBlock
    simp only [hw, h0, if_true, ha, ne_neg1 hb, if_false, State.setTemp_eq, State.put_temp,
      State.put_disk, State.put_put, word_putWord_self, hne, writeBlock_eq _ hb',
      writeBlock_eq _ hb, blockSize]
  · rw [inode_putBlock, o3]
  · rw [bmap_putBlock, o2]
  · rw [idx_congr (block_putBlock_of_ne _ _ _ hbB)]
    exact idx_of_zero (block_fill_zero _ _ _ _) k

/-- The two steps below the double indirect pointer of an inode. -/
theorem doubleEntry_grow {s : State} (hs : SbOk s) (h : BlkInv s.disk) {n i j : ℕ}
    (hn : imap s.disk n = true) (hi : i < 1024) (hj : j < 1024) {B : ℕ}
    (hBe : (inode s.disk n).ptr 11 = B) (hB : B ≠ 0)
    (hf : (doubleEntry s B i j true).2.allocFailed = false) :
    ∃ d t, doubleEntry s B i j true = (ref (cells d) (n, 11) [j, i], s.put d t) ∧
      Grow n (1034 + 1024 * i + j) s.disk d ∧ ref (cells d) (n, 11) [j, i] ≠ 0 ∧
      ∀ m, inode d m = inode s.disk m := by
  have hp : Shape s.disk (n, 11) [j, i] := ⟨hn, by simp, by simp, by simp [hi, hj]⟩
  have hp' := shape_closed _ _ _ _ hp
  have hb : B < 131072 := hBe ▸ h.ref_lt (shape_closed _ _ _ _ hp')
  have hw := readBlock_word s hb 0 hi
  rw [Nat.zero_add] at hw
  have e1 : ref (cells s.disk) (n, 11) [i] = idx s.disk B i := by
    rw [← hBe] at hB ⊢
    exact ref_cons_of_ne hB
  by_cases h0 : idx s.disk B i = 0
  · -- first a new second-level index block, then the data block
    rcases allocBlock_spec (hs.readBlock B 0) with ⟨b, hb', hfree, ha⟩ | ⟨-, ha⟩
    swap
    · unfold doubleEntry allocIndexBlock at hf
      simp only [hw, h0, if_true, ha] at hf
      cases hf
    obtain ⟨d1, t1, e, hs1, hF, hF', hin, -, -⟩ := doubleEntry_new hs h hn hi hBe hB h0 hb' hfree ha j
    rw [e] at hf ⊢
    have hp2 : Shape d1 (n, 11) [j, i] := (shape_congr hF.imap).symm ▸ hp
    obtain ⟨d, t, h1, h2, h3, h4⟩ := indexEntry_fill hs1 hF.inv hp2 rfl hF'
      (by rw [← hF']; exact hF.filled) hf
    simp only [State.put_disk, State.put_put] at h1 h2 h3 h4
    exact ⟨d, t, h1, (hF.grow_index hn (by simp) _).trans hn
      (h2.grow (by rwa [hF.imap]) (path_leaf hj) h4), h2.filled, fun m => (h3 m).trans (hin m)⟩
  · unfold doubleEntry at hf ⊢
    simp only [hw, h0, if_false] at hf ⊢
    obtain ⟨d, t, h1, h2, h3, h4⟩ := indexEntry_fill (hs.readBlock B 0) h hp rfl e1 h0 hf
    simp only [readBlock_disk, readBlock_put] at h1 h2 h3 h4
    exact ⟨d, t, h1, h2.grow hn (path_leaf hj) h4, h2.filled, h3⟩

/-! ## Logical blocks -/

section Logical

variable (d : Mem) (n : ℕ)

theorem pblk_direct {l : ℕ} (hl : l < 10) : pblk d n l = (inode d n).ptr l := by
  unfold pblk blockPath
  rw [if_pos hl]
  rfl

theorem pblk_indirect {l : ℕ} (h1 : 10 ≤ l) (h2 : l - 10 < 1024) :
    pblk d n l = ref (cells d) (n, 10) [l - 10] := by
  unfold pblk blockPath
  rw [if_neg (by omega), if_pos h2]

theorem pblk_double {l : ℕ} (h : 1034 ≤ l) :
    pblk d n l = ref (cells d) (n, 11) [(l - 1034) % 1024, (l - 1034) / 1024] := by
  unfold pblk blockPath
  rw [if_neg (by omega), if_neg (by omega)]

end Logical

/-- Without `alloc`: the block of the logical block, or 0 for a hole. -/
theorem getPhysicalBlockId_false {s : State} {n l : ℕ} (h : PathOk s.disk n l) {node : Inode}
    (hnode : node.ptr = (inode s.disk n).ptr) (hl : l < maxBlocks) :
    ∃ t, getPhysicalBlockId s node n l false = (pblk s.disk n l, node, s.put s.disk t) := by
  unfold maxBlocks at hl
  have hI : node.indirect = (inode s.disk n).ptr 10 := by rw [← hnode]; rfl
  have hD : node.double = (inode s.disk n).ptr 11 := by rw [← hnode]; rfl
  unfold getPhysicalBlockId
  simp only [directBlockNum, indirectBlockNum, doubleIndirectBlockNum, Bool.false_eq_true,
    and_false, if_false]
  by_cases h1 : l < 10
  · rw [if_pos h1, pblk_direct _ _ h1, ← hnode, Inode.ptr_direct _ h1]
    exact ⟨s.temp, rfl⟩
  · rw [if_neg h1]
    unfold PathOk blockPath at h
    rw [if_neg h1] at h
    by_cases h2 : l - 10 < 1024
    · rw [if_pos h2] at h
      have hb : (inode s.disk n).ptr 10 < 131072 := h [] (List.nil_suffix)
      rw [if_pos h2, pblk_indirect _ _ (by omega) h2, hI]
      by_cases h0 : (inode s.disk n).ptr 10 = 0
      · rw [if_pos h0, ref_cons_of_eq (show ref (cells s.disk) (n, 10) [] = 0 from h0)]
        exact ⟨s.temp, rfl⟩
      · rw [if_neg h0, indexEntry_false s hb h2,
          ref_cons_of_ne (show ref (cells s.disk) (n, 10) [] ≠ 0 from h0)]
        exact ⟨_, rfl⟩
    · rw [if_neg h2] at h
      have hb : (inode s.disk n).ptr 11 < 131072 := h [] (List.nil_suffix)
      have hb2 : ref (cells s.disk) (n, 11) [(l - 1034) / 1024] < 131072 :=
        h _ (List.suffix_cons _ _)
      rw [if_neg h2, if_pos (by omega), pblk_double _ _ (by omega), hD,
        show l - 10 - 1024 = l - 1034 by omega]
      by_cases h0 : (inode s.disk n).ptr 11 = 0
      · rw [if_pos h0, ref_cons_of_eq (ref_cons_of_eq
          (show ref (cells s.disk) (n, 11) [] = 0 from h0))]
        exact ⟨s.temp, rfl⟩
      · have hi : (l - 1034) / 1024 < 1024 := by omega
        have hj : (l - 1034) % 1024 < 1024 := by omega
        have e1 : ref (cells s.disk) (n, 11) [(l - 1034) / 1024] =
            idx s.disk ((inode s.disk n).ptr 11) ((l - 1034) / 1024) :=
          ref_cons_of_ne (show ref (cells s.disk) (n, 11) [] ≠ 0 from h0)
        have hw := readBlock_word s hb 0 hi
        rw [Nat.zero_add, ← e1] at hw
        rw [if_neg h0]
        unfold doubleEntry
        simp only [hw, Bool.false_eq_true, if_false]
        by_cases h3 : ref (cells s.disk) (n, 11) [(l - 1034) / 1024] = 0
        · rw [if_pos h3, ref_cons_of_eq h3]
          exact ⟨_, rfl⟩
        · rw [if_neg h3, indexEntry_false _ hb2 hj, ref_cons_of_ne h3]
          exact ⟨_, rfl⟩

/-- Writing back an inode whose pointer `i` is a fresh zero block fills that pointer. -/
theorem fill_putInode {d t : Mem} (h : BlkInv d) {n i b : ℕ} (hn : imap d n = true) (hi : i < 12)
    (h0 : (inode d n).ptr i = 0) (hb : b < 131072) (hfree : bmap d b = false) {x : Inode}
    (hx : ∀ j, x.ptr j = if j = i then b else (inode d n).ptr j) :
    Fill (n, i) [] d (putInode (putBlock (setBit d bmapBase b) b (fill t 0 0#8 4096) 0) n x) ∧
      ref (cells (putInode (putBlock (setBit d bmapBase b) b (fill t 0 0#8 4096) 0) n x)) (n, i) []
        = b := by
  have hn' := imap_lt hn
  obtain ⟨o1, o2, o3, o4, o5⟩ := observe_mark_write (d := d) hb b (fill t 0 0#8 4096) 0
  refine Fill.root h ⟨hn, hi, by simp, by simp⟩ h0 hfree (fun m => ?_) (fun c => ?_)
    (fun hsb => (o5 hsb).putInode _ _) (fun m hm => ?_) (fun j _ => ?_) (fun c hc => ?_)
    (fun _ => ?_)
  · rw [imap_putInode, o1]
  · rw [bmap_putInode, o2]
  · rw [inode_putInode_of_ne _ _ hm, o3]
  · rw [inode_putInode_self _ _ hn', hx]
  · rw [block_putInode _ _ hn', o4 c hc]
  · rw [block_putInode _ _ hn']
    exact block_fill_zero _ _ _ _

/-- The inode that `getPhysicalBlockId` leaves in memory: the caller's one with the pointers the
inode has on the disk. -/
structure NodeOf (node node' : Inode) (n : ℕ) (d : Mem) : Prop where
  sameMeta : Inode.SameMeta node node'
  ptr : node'.ptr = (inode d n).ptr

section Alloc

variable {s : State} (hs : SbOk s) (h : BlkInv s.disk) {n : ℕ} (hn : imap s.disk n = true)
  {node : Inode} (hnode : node.ptr = (inode s.disk n).ptr)

include hs h hn hnode

/-- The fresh block `b` as index block for pointer `i`, as `getPhysicalBlockId` installs it; `f b` is
the inode with the new pointer. -/
theorem indexRoot_new {i : ℕ} (hi : i < 12) (h0 : (inode s.disk n).ptr i = 0) {f : ℕ → Inode}
    (hx : ∀ b j, (f b).ptr j = if j = i then u32 b else node.ptr j) {b : ℕ} (hb : b < 131072)
    (hfree : bmap s.disk b = false)
    (ha : allocBlock s = (b, s.put (setBit s.disk bmapBase b) s.temp)) :
    ∃ d t, b ≠ 0 ∧ (allocIndexBlock s 0).1 = b ∧
      writeInode (allocIndexBlock s 0).2 n (f b) = s.put d t ∧ SbOk (s.put d t) ∧
      Fill (n, i) [] s.disk d ∧ (inode d n).ptr i = b ∧ inode d n = f b ∧
      (∀ c, bmap d c = (decide (c = b) || bmap s.disk c)) ∧ ∀ k, idx d b k = 0 := by
  have hn' := imap_lt hn
  obtain ⟨hF, hF'⟩ := fill_putInode (t := s.temp) h hn hi h0 hb hfree (x := f b)
    (fun j => by rw [hx, u32_of_lt (by omega), hnode])
  have e : allocIndexBlock s 0 = (b, s.put (putBlock (setBit s.disk bmapBase b) b
      (fill s.temp 0 0#8 4096) 0) (fill s.temp 0 0#8 4096)) := by
    unfold allocIndexBlock
    simp only [ha, ne_neg1 hb, if_false, State.setTemp_eq, writeBlock_eq _ hb, State.put_temp,
      State.put_disk, State.put_put, blockSize]
  refine ⟨_, fill s.temp 0 0#8 4096, ?_, by rw [e], by rw [e, writeInode_eq _ hn']; rfl,
    hs.put (hF.sb hs.on) _, hF, hF', inode_putInode_self _ _ hn', fun c => ?_, fun k => ?_⟩
  · rw [← hF']
    exact hF.filled
  · rw [bmap_putInode, bmap_putBlock, bmap_setBit _ hb]
  · rw [idx_congr (block_putInode _ _ hn' _)]
    exact idx_of_zero (block_fill_zero _ _ _ _) k

/-- Direct blocks. -/
theorem getPhysicalBlockId_direct {l : ℕ} (hl : l < 10)
    (hf : (getPhysicalBlockId s node n l true).2.2.allocFailed = false) :
    ∃ d t node', getPhysicalBlockId s node n l true = (pblk d n l, node', s.put d t) ∧
      Grow n l s.disk d ∧ pblk d n l ≠ 0 ∧ NodeOf node node' n d ∧
      (inode d n = inode s.disk n ∨ inode d n = node') := by
  have hn' := imap_lt hn
  have hdir : node.direct l = (inode s.disk n).ptr l := by rw [← hnode, Inode.ptr_direct _ hl]
  have hpath : blockPath l = (l, []) := by
    unfold blockPath
    rw [if_pos hl]
  unfold getPhysicalBlockId at hf ⊢
  simp only [directBlockNum, hl, if_true, and_true, hdir] at hf ⊢
  by_cases h0 : (inode s.disk n).ptr l = 0
  · rw [if_pos h0] at hf ⊢
    rcases allocBlock_spec hs with ⟨b, hb, hfree, ha⟩ | ⟨-, ha⟩
    · have hx : (node.setDirect l b).direct l = b := by
        rw [← Inode.ptr_direct _ hl, Inode.ptr_setDirect _ hl, if_pos rfl, u32_of_lt (by omega)]
      simp only [ha, hx, ne_neg1 hb, if_false]
      rw [writeInode_eq _ hn']
      obtain ⟨o1, o2, o3⟩ := observe_setBmap s.disk hb
      obtain ⟨hF, hF'⟩ : Fill (n, l) [] s.disk
          (putInode (setBit s.disk bmapBase b) n (node.setDirect l b)) ∧ _ := by
        refine Fill.root h ⟨hn, by simp only; omega, by simp, by simp⟩ h0 hfree (fun m => ?_)
          (fun c => ?_) (fun hsb => (o3 hsb).putInode _ _) (fun m hm => ?_) (fun j _ => ?_)
          (fun c _ => ?_) (fun hge => by omega)
        · rw [imap_putInode, imap_setBmap _ hb]
        · rw [bmap_putInode, bmap_setBit _ hb]
        · rw [inode_putInode_of_ne _ _ hm, o1]
        · rw [inode_putInode_self _ _ hn', Inode.ptr_setDirect _ hl, u32_of_lt (by omega), hnode]
        · rw [block_putInode _ _ hn', o2]
      have e := pblk_direct (putInode (setBit s.disk bmapBase b) n (node.setDirect l b)) n hl
      have e' := inode_putInode_self (setBit s.disk bmapBase b) (node.setDirect l b) hn'
      have hlaid : Laid s.disk (putInode (setBit s.disk bmapBase b) n (node.setDirect l b)) b :=
        ⟨hfree, by rw [block_putInode _ _ hn', o2]⟩
      refine ⟨_, s.temp, node.setDirect l b, ?_, hF.grow hn hpath (fun _ => by rwa [hF']), ?_,
        ⟨⟨rfl, rfl, rfl, rfl⟩, by rw [e']⟩, Or.inr e'⟩
      · rw [e, e', Inode.ptr_direct _ hl, hx]
        rfl
      · rw [e]
        exact hF.filled
    · simp only [ha] at hf
      split_ifs at hf
      · simp at hf
      · simp at hf
  · rw [if_neg h0]
    refine ⟨s.disk, s.temp, node, ?_, Grow.refl h n l, ?_, ⟨Inode.SameMeta.refl _, hnode⟩,
      Or.inl rfl⟩
    · rw [pblk_direct _ _ hl]
      rfl
    · rwa [pblk_direct _ _ hl]

/-- Blocks below the indirect pointer. -/
theorem getPhysicalBlockId_indirect {l : ℕ} (h1 : 10 ≤ l) (h2 : l - 10 < 1024)
    (hf : (getPhysicalBlockId s node n l true).2.2.allocFailed = false) :
    ∃ d t node', getPhysicalBlockId s node n l true = (pblk d n l, node', s.put d t) ∧
      Grow n l s.disk d ∧ pblk d n l ≠ 0 ∧ NodeOf node node' n d ∧
      (inode d n = inode s.disk n ∨ inode d n = node') := by
  have hI : node.indirect = (inode s.disk n).ptr 10 := by rw [← hnode]; rfl
  have hpath : blockPath l = (10, [l - 10]) := by
    unfold blockPath
    rw [if_neg (by omega), if_pos h2]
  have hp : Shape s.disk (n, 10) [l - 10] := ⟨hn, by simp, by simp, by simpa using h2⟩
  unfold getPhysicalBlockId at hf ⊢
  simp only [directBlockNum, indirectBlockNum, show ¬ l < 10 by omega, h2, if_false, if_true,
    hI] at hf ⊢
  by_cases h0 : (inode s.disk n).ptr 10 = 0
  · simp only [h0, if_true] at hf ⊢
    rcases allocBlock_spec hs with ⟨b, hb, hfree, ha⟩ | ⟨-, ha⟩
    swap
    · unfold allocIndexBlock at hf
      have hx : (node.setIndirect neg1).indirect = neg1 := rfl
      simp only [ha, hx, if_true] at hf
      cases hf
    obtain ⟨d1, t1, hb0, e1, e2, hs1, hF, hF', hx, -, -⟩ := indexRoot_new hs h hn hnode
      (by omega) h0 (fun b j => Inode.ptr_setIndirect node b j) hb hfree ha
    have hbi : (node.setIndirect b).indirect = b := u32_of_lt (by omega)
    simp only [e1, e2, hbi, ne_neg1 hb, if_false] at hf ⊢
    have hp1 : Shape d1 (n, 10) [l - 10] := (shape_congr hF.imap).symm ▸ hp
    obtain ⟨d, t, e3, e4, e5, e6⟩ := indexEntry_fill hs1
      hF.inv hp1 rfl (show ref (cells d1) (n, 10) [] = b from hF') hb0 hf
    simp only [State.put_disk, State.put_put] at e3 e4 e5 e6
    refine ⟨d, t, node.setIndirect b, ?_, (hF.grow_index hn (by simp) l).trans hn (e4.grow ?_ hpath e6), ?_,
      ⟨⟨rfl, rfl, rfl, rfl⟩, ?_⟩, Or.inr ?_⟩
    · rw [e3, pblk_indirect _ _ h1 h2]
    · rwa [hF.imap]
    · rw [pblk_indirect _ _ h1 h2]
      exact e4.filled
    · rw [e5, hx]
    · rw [e5, hx]
  · simp only [h0, if_false] at hf ⊢
    obtain ⟨d, t, e1, e2, e3, e4⟩ := indexEntry_fill hs h hp rfl rfl h0 hf
    change indexEntry s ((inode s.disk n).ptr 10) _ _ = _ at e1
    refine ⟨d, t, node, ?_, e2.grow hn hpath e4, ?_, ⟨Inode.SameMeta.refl _, ?_⟩, Or.inl (e3 n)⟩
    · rw [e1, pblk_indirect _ _ h1 h2]
    · rw [pblk_indirect _ _ h1 h2]
      exact e2.filled
    · rw [e3, hnode]

/-- Blocks below the double indirect pointer. -/
theorem getPhysicalBlockId_double {l : ℕ} (h1 : 1034 ≤ l) (h2 : l < maxBlocks)
    (hf : (getPhysicalBlockId s node n l true).2.2.allocFailed = false) :
    ∃ d t node', getPhysicalBlockId s node n l true = (pblk d n l, node', s.put d t) ∧
      Grow n l s.disk d ∧ pblk d n l ≠ 0 ∧ NodeOf node node' n d ∧
      (inode d n = inode s.disk n ∨ inode d n = node') := by
  unfold maxBlocks at h2
  have hD : node.double = (inode s.disk n).ptr 11 := by rw [← hnode]; rfl
  have hi : (l - 1034) / 1024 < 1024 := by omega
  have hj : (l - 1034) % 1024 < 1024 := by omega
  have hl : 1034 + 1024 * ((l - 1034) / 1024) + (l - 1034) % 1024 = l := by omega
  unfold getPhysicalBlockId at hf ⊢
  simp only [directBlockNum, indirectBlockNum, doubleIndirectBlockNum, show ¬ l < 10 by omega,
    show ¬ l - 10 < 1024 by omega, show l - 10 - 1024 = l - 1034 by omega,
    show l - 1034 < 1024 * 1024 by omega, if_false, if_true, hD] at hf ⊢
  by_cases h0 : (inode s.disk n).ptr 11 = 0
  · simp only [h0, if_true] at hf ⊢
    rcases allocBlock_spec hs with ⟨b, hb, hfree, ha⟩ | ⟨-, ha⟩
    swap
    · unfold allocIndexBlock at hf
      have hx : (node.setDouble neg1).double = neg1 := rfl
      simp only [ha, hx, if_true] at hf
      cases hf
    obtain ⟨d1, t1, hb0, e1, e2, hs1, hF, hF', hx, -, -⟩ := indexRoot_new hs h hn hnode
      (by omega) h0 (fun b j => Inode.ptr_setDouble node b j) hb hfree ha
    have hbi : (node.setDouble b).double = b := u32_of_lt (by omega)
    simp only [e1, e2, hbi, ne_neg1 hb, if_false] at hf ⊢
    obtain ⟨d, t, e3, e4, e5, e6⟩ := doubleEntry_grow hs1
      hF.inv ((hF.imap n).trans hn) hi hj hF' hb0 hf
    simp only [State.put_disk, State.put_put] at e3 e4 e6
    rw [hl] at e4
    refine ⟨d, t, node.setDouble b, ?_, (hF.grow_index hn (by simp) l).trans hn e4, ?_,
      ⟨⟨rfl, rfl, rfl, rfl⟩, ?_⟩, Or.inr ?_⟩
    · rw [pblk_double _ _ h1, e3]
    · rwa [pblk_double _ _ h1]
    · rw [e6, hx]
    · rw [e6, hx]
  · simp only [h0, if_false] at hf ⊢
    obtain ⟨d, t, e3, e4, e5, e6⟩ := doubleEntry_grow hs h hn hi hj rfl h0 hf
    rw [hl] at e4
    refine ⟨d, t, node, ?_, e4, ?_, ⟨Inode.SameMeta.refl _, ?_⟩, Or.inl (e6 n)⟩
    · rw [e3, pblk_double _ _ h1]
    · rwa [pblk_double _ _ h1]
    · rw [e6, hnode]

/-- With `alloc`, unless an allocation fails: the logical block has a block afterwards, and this is
a growth of the inode at that logical block. -/
theorem getPhysicalBlockId_grow {l : ℕ} (hl : l < maxBlocks)
    (hf : (getPhysicalBlockId s node n l true).2.2.allocFailed = false) :
    ∃ d t node', getPhysicalBlockId s node n l true = (pblk d n l, node', s.put d t) ∧
      Grow n l s.disk d ∧ pblk d n l ≠ 0 ∧ NodeOf node node' n d ∧
      (inode d n = inode s.disk n ∨ inode d n = node') := by
  by_cases h1 : l < 10
  · exact getPhysicalBlockId_direct hs h hn hnode h1 hf
  · by_cases h2 : l - 10 < 1024
    · exact getPhysicalBlockId_indirect hs h hn hnode (by omega) h2 hf
    · exact getPhysicalBlockId_double hs h hn hnode (by omega) hl hf

end Alloc

end RiscvKernel.Fs
