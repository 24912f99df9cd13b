import RiscvKernel.Fs.Frame

/-!
# Free blocks

How many blocks `getPhysicalBlockId` allocates (`need`), and what it does when so many are not free:
it takes what is there and returns -1 (`getPhysicalBlockId_short`). The inode in memory is then the
one on the disk, unless the pointer that could not be allocated is in the inode itself: that pointer
is -1 in memory.
-/

namespace RiscvKernel.Fs

open Lib Lib.Forest

/-! ## Counting -/

/-- The number of free blocks. -/
def freeCount (d : Mem) : ℕ := ((Finset.range fsBlockNum).filter fun b => bmap d b = false).card

theorem freeCount_congr {d d' : Mem} (h : ∀ b, bmap d' b = bmap d b) :
    freeCount d' = freeCount d := by
  unfold freeCount
  simp only [h]

/-- One more block is marked. -/
theorem freeCount_mark {d d' : Mem} {b : ℕ} (hb : b < 131072) (h0 : bmap d b = false)
    (h : ∀ c, bmap d' c = (decide (c = b) || bmap d c)) : freeCount d' + 1 = freeCount d := by
  have hmem : b ∈ (Finset.range fsBlockNum).filter fun c => bmap d c = false :=
    Finset.mem_filter.mpr ⟨Finset.mem_range.mpr hb, h0⟩
  have e : ((Finset.range fsBlockNum).filter fun c => bmap d' c = false) =
      ((Finset.range fsBlockNum).filter fun c => bmap d c = false).erase b := by
    ext c
    simp only [Finset.mem_filter, Finset.mem_erase, h, Bool.or_eq_false_iff,
      decide_eq_false_iff_not]
    exact ⟨fun ⟨h1, h2, h3⟩ => ⟨h2, h1, h3⟩, fun ⟨h1, h2, h3⟩ => ⟨h2, h1, h3⟩⟩
  unfold freeCount
  rw [e]
  exact Finset.card_erase_add_one hmem

theorem freeCount_eq_zero {d : Mem} : freeCount d = 0 ↔ ∀ b < 131072, bmap d b = true := by
  unfold freeCount
  rw [Finset.card_eq_zero, Finset.filter_eq_empty_iff]
  simp only [Finset.mem_range, Bool.not_eq_false]
  rfl

/-- `alloc_block` by the number of free blocks. -/
theorem allocBlock_cases {s : State} (hs : SbOk s) :
    (∃ b, b < 131072 ∧ bmap s.disk b = false ∧
      allocBlock s = (b, s.put (setBit s.disk bmapBase b) s.temp) ∧
      freeCount (setBit s.disk bmapBase b) + 1 = freeCount s.disk) ∨
    (freeCount s.disk = 0 ∧ allocBlock s = (neg1, s.fail)) := by
  rcases allocBlock_spec hs with ⟨b, hb, hfree, e⟩ | ⟨hfull, e⟩
  · exact Or.inl ⟨b, hb, hfree, e, freeCount_mark hb hfree (bmap_setBit s.disk hb)⟩
  · exact Or.inr ⟨freeCount_eq_zero.mpr hfull, e⟩

/-! ## The failure mark

Nothing reads the mark, so a call does the same on a state that carries it already. -/

@[simp] theorem State.fail_disk (s : State) : s.fail.disk = s.disk := rfl
@[simp] theorem State.fail_temp (s : State) : s.fail.temp = s.temp := rfl
@[simp] theorem State.fail_setTemp (s : State) (t : Mem) :
    s.fail.setTemp t = (s.setTemp t).fail := rfl
@[simp] theorem State.fail_sb (s : State) : s.fail.sb = s.sb := rfl

theorem writeBlock_fail (s : State) (b o : ℕ) :
    writeBlock s.fail b o = (writeBlock s b o).fail := rfl

theorem allocIn_fail (s : State) (f : Superblock → ℕ) (n : ℕ) :
    allocIn s.fail f n = ((allocIn s f n).1, (allocIn s f n).2.fail) := by
  have hs : (if s.fail.sbValid then s.fail else { readSb s.fail with sbValid := true }) =
      (if s.sbValid then s else { readSb s with sbValid := true }).fail := by
    show (if s.sbValid then s.fail else { readSb s.fail with sbValid := true }) = _
    split_ifs <;> rfl
  unfold allocIn
  dsimp only
  rw [hs]
  generalize (if s.sbValid then s else { readSb s with sbValid := true }) = x
  simp only [State.fail_disk, State.fail_sb]
  cases findClear x.disk (f x.sb) n <;> rfl

theorem allocBlock_fail (s : State) :
    allocBlock s.fail = ((allocBlock s).1, (allocBlock s).2.fail) := allocIn_fail ..

theorem indexEntry_fail (s : State) (b k : ℕ) (a : Bool) :
    indexEntry s.fail b k a = ((indexEntry s b k a).1, (indexEntry s b k a).2.fail) := by
  have e : readBlock s.fail b 0 = (readBlock s b 0).fail := rfl
  unfold indexEntry
  simp only [e, allocBlock_fail, State.fail_temp, State.fail_setTemp]
  split_ifs <;> rfl

theorem allocIndexBlock_fail (s : State) (o : ℕ) :
    allocIndexBlock s.fail o = ((allocIndexBlock s o).1, (allocIndexBlock s o).2.fail) := by
  unfold allocIndexBlock
  simp only [allocBlock_fail]
  split_ifs <;> rfl

theorem doubleEntry_fail (s : State) (b i j : ℕ) (a : Bool) :
    doubleEntry s.fail b i j a = ((doubleEntry s b i j a).1, (doubleEntry s b i j a).2.fail) := by
  have e : readBlock s.fail b 0 = (readBlock s b 0).fail := rfl
  unfold doubleEntry
  simp only [e, allocIndexBlock_fail, State.fail_temp, State.fail_setTemp, writeBlock_fail]
  split_ifs
  · rfl
  · exact indexEntry_fail ..
  · rfl
  · exact indexEntry_fail ..

theorem getPhysicalBlockId_fail (s : State) (node : Inode) (n l : ℕ) (a : Bool) :
    getPhysicalBlockId s.fail node n l a =
      ((getPhysicalBlockId s node n l a).1, (getPhysicalBlockId s node n l a).2.1,
        (getPhysicalBlockId s node n l a).2.2.fail) := by
  have hw : ∀ (s : State) (x : Inode), writeInode s.fail n x = (writeInode s n x).fail :=
    fun _ _ => rfl
  unfold getPhysicalBlockId
  simp only [allocBlock_fail, allocIndexBlock_fail, hw, indexEntry_fail, doubleEntry_fail]
  split_ifs <;> rfl

/-- A state that carries the mark is another one with the mark set. -/
theorem State.eq_fail {s : State} (h : s.allocFailed = true) :
    s = ({ s with allocFailed := false } : State).fail := by
  unfold State.fail
  rw [← h]

/-! ## What the steps allocate -/

/-- The number of blocks `getPhysicalBlockId` allocates for logical block `l` of inode `n`. -/
def need (d : Mem) (n l : ℕ) : ℕ :=
  if l < 10 then if (inode d n).ptr l = 0 then 1 else 0
  else if l - 10 < 1024 then
    if (inode d n).ptr 10 = 0 then 2
    else if idx d ((inode d n).ptr 10) (l - 10) = 0 then 1 else 0
  else if (inode d n).ptr 11 = 0 then 3
  else if idx d ((inode d n).ptr 11) ((l - 1034) / 1024) = 0 then 2
  else if idx d (idx d ((inode d n).ptr 11) ((l - 1034) / 1024)) ((l - 1034) % 1024) = 0 then 1
  else 0

theorem need_le (d : Mem) (n l : ℕ) : need d n l ≤ 3 := by
  unfold need
  split_ifs <;> omega

/-- From `s` to `s'` exactly `k` blocks have been allocated, and no allocation has failed. -/
structure Spent (s : State) (k : ℕ) (s' : State) : Prop where
  flag : s'.allocFailed = s.allocFailed
  count : freeCount s'.disk + k = freeCount s.disk

section Steps

variable {s : State} (hs : SbOk s)

theorem freeCount_putBlock (d : Mem) (b : ℕ) (t : Mem) (o : ℕ) :
    freeCount (putBlock d b t o) = freeCount d := freeCount_congr fun _ => bmap_putBlock ..

theorem freeCount_putInode (d : Mem) (n : ℕ) (x : Inode) :
    freeCount (putInode d n x) = freeCount d := freeCount_congr fun _ => bmap_putInode ..

include hs

theorem allocIndexBlock_short {o : ℕ} (h : freeCount s.disk = 0) :
    allocIndexBlock s o = (neg1, s.fail) := by
  rcases allocBlock_cases hs with ⟨b, -, -, -, hc⟩ | ⟨-, e⟩
  · omega
  · unfold allocIndexBlock
    simp only [e, if_true]

variable {B k : ℕ} (hB : B < 131072) (hk : k < 1024)

include hB hk

theorem indexEntry_spent (h : (if idx s.disk B k = 0 then 1 else 0) ≤ freeCount s.disk) :
    Spent s (if idx s.disk B k = 0 then 1 else 0) (indexEntry s B k true).2 := by
  have hw := readBlock_word s hB 0 hk
  rw [Nat.zero_add] at hw
  unfold indexEntry
  simp only [hw, and_true]
  by_cases h0 : idx s.disk B k = 0
  · rw [if_pos h0] at h ⊢
    rcases allocBlock_cases (hs.readBlock B 0) with ⟨b, hb, -, e, hc⟩ | ⟨hz, -⟩
    · have hne : b % 2 ^ 32 = b := Nat.mod_eq_of_lt (by omega)
      simp only [h0, if_true, e, State.setTemp_eq, State.put_temp, State.put_disk,
        State.put_put, word_putWord_self, hne, ne_neg1 hb, if_false, writeBlock_eq _ hB]
      exact ⟨rfl, by rw [State.put_disk, freeCount_putBlock]; exact hc⟩
    · simp only [readBlock_disk] at hz
      omega
  · simp only [h0, if_false]
    exact ⟨rfl, Nat.add_zero _⟩

theorem indexEntry_short (h0 : idx s.disk B k = 0) (hz : freeCount s.disk = 0) :
    ∃ t, indexEntry s B k true = (neg1, (s.put s.disk t).fail) := by
  have hw := readBlock_word s hB 0 hk
  rw [Nat.zero_add, h0] at hw
  rcases allocBlock_cases (hs.readBlock B 0) with ⟨b, -, -, -, hc⟩ | ⟨-, e⟩
  · simp only [readBlock_disk] at hc
    omega
  · unfold indexEntry
    have hn : neg1 % 2 ^ 32 = neg1 := rfl
    simp only [hw, and_self, if_true, e, State.fail_temp, State.setTemp_eq,
      State.put_temp, word_putWord_self, hn]
    exact ⟨_, rfl⟩

end Steps

section Double

variable {s : State} (hs : SbOk s) (h : BlkInv s.disk) {n i j : ℕ} (hn : imap s.disk n = true)
  (hi : i < 1024) (hj : j < 1024) {B : ℕ} (hBe : (inode s.disk n).ptr 11 = B) (hB : B ≠ 0)

include h hn hi hBe in
theorem double_lt : B < 131072 ∧ idx s.disk B i < 131072 := by
  have hp : Shape s.disk (n, 11) [i] := ⟨hn, by simp, by simp, by simp [hi]⟩
  have hb : B < 131072 := hBe ▸ h.ref_lt (shape_closed _ _ _ _ hp)
  refine ⟨hb, ?_⟩
  by_cases h0 : B = 0
  · rw [h0, idx_of_zero h.zero]
    norm_num
  · have e : ref (cells s.disk) (n, 11) [i] = idx s.disk B i := by
      rw [← hBe] at h0 ⊢
      exact ref_cons_of_ne h0
    rw [← e]
    exact h.ref_lt hp

/-- The second step, when the second-level index block is there. -/
theorem doubleEntry_old {B : ℕ} (hB : B < 131072) (hi : i < 1024) (h0 : idx s.disk B i ≠ 0)
    (j : ℕ) : doubleEntry s B i j true = indexEntry (readBlock s B 0) (idx s.disk B i) j true := by
  have hw := readBlock_word s hB 0 hi
  rw [Nat.zero_add] at hw
  unfold doubleEntry
  simp only [hw, h0, if_false]

include hs h hn hi hj hBe hB

theorem doubleEntry_spent {k : ℕ}
    (hk : k = if idx s.disk B i = 0 then 2 else if idx s.disk (idx s.disk B i) j = 0 then 1 else 0)
    (hle : k ≤ freeCount s.disk) : Spent s k (doubleEntry s B i j true).2 := by
  obtain ⟨hb, hb2⟩ := double_lt h hn hi hBe
  by_cases h0 : idx s.disk B i = 0
  · rw [if_pos h0] at hk
    subst hk
    rcases allocBlock_cases (hs.readBlock B 0) with ⟨b, hb', hfree, e, hc⟩ | ⟨hz, -⟩
    swap
    · simp only [readBlock_disk] at hz
      omega
    obtain ⟨d, t, e1, hs1, -, -, -, hbm, hidx⟩ :=
      doubleEntry_new hs h hn hi hBe hB h0 hb' hfree e j
    have hcount := freeCount_mark hb' hfree hbm
    simp only [readBlock_disk] at hcount
    obtain ⟨h1, h2⟩ := indexEntry_spent hs1 hb' hj (by
      rw [State.put_disk, if_pos (hidx j)]
      omega)
    rw [State.put_disk, if_pos (hidx j)] at h2
    rw [e1]
    exact ⟨h1, by omega⟩
  · rw [if_neg h0] at hk
    subst hk
    rw [doubleEntry_old hb hi h0]
    obtain ⟨h1, h2⟩ := indexEntry_spent (hs.readBlock B 0) hb2 hj hle
    exact ⟨h1, h2⟩

/-- Too few free blocks below the double indirect pointer. -/
theorem doubleEntry_short (hlt : freeCount s.disk <
      if idx s.disk B i = 0 then 2 else if idx s.disk (idx s.disk B i) j = 0 then 1 else 0) :
    ∃ d t, doubleEntry s B i j true = (neg1, (s.put d t).fail) ∧ freeCount d = 0 ∧
      Grow n (1034 + 1024 * i + j) s.disk d ∧ ref (cells d) (n, 11) [j, i] = 0 ∧
      (∀ m, inode d m = inode s.disk m) ∧ (freeCount s.disk = 0 → d = s.disk) := by
  obtain ⟨hb, hb2⟩ := double_lt h hn hi hBe
  have e0 : ref (cells s.disk) (n, 11) [i] = idx s.disk B i := by
    rw [← hBe] at hB ⊢
    exact ref_cons_of_ne hB
  by_cases h0 : idx s.disk B i = 0
  · rw [if_pos h0] at hlt
    rcases allocBlock_cases (hs.readBlock B 0) with ⟨b, hb', hfree, e, hc⟩ | ⟨hz, e⟩
    · -- the index block is there, the data block is not
      obtain ⟨d, t, e1, hs1, hF, hF', hin, hbm, hidx⟩ :=
        doubleEntry_new hs h hn hi hBe hB h0 hb' hfree e j
      have hcount := freeCount_mark hb' hfree hbm
      simp only [readBlock_disk] at hcount
      obtain ⟨t', e2⟩ := indexEntry_short hs1 hb' hj (hidx j) (by rw [State.put_disk]; omega)
      refine ⟨d, t', ?_, by omega, hF.grow_index hn (by simp) _, ?_, hin, fun hz => by omega⟩
      · rw [e1, e2]
        rfl
      · rw [ref_cons_of_ne hF.filled, hF']
        exact hidx j
    · simp only [readBlock_disk] at hz
      have hw := readBlock_word s hb 0 hi
      rw [Nat.zero_add] at hw
      refine ⟨s.disk, (readBlock s B 0).temp, ?_, hz, Grow.refl h _ _, ?_, fun _ => rfl,
        fun _ => rfl⟩
      · unfold doubleEntry
        simp only [hw, h0, if_true, allocIndexBlock_short (hs.readBlock B 0) hz]
        rfl
      · exact ref_cons_of_eq (e0.trans h0)
  · rw [if_neg h0] at hlt
    have h1 : idx s.disk (idx s.disk B i) j = 0 := by
      by_contra hne
      rw [if_neg hne] at hlt
      omega
    rw [if_pos h1] at hlt
    obtain ⟨t, e⟩ := indexEntry_short (hs.readBlock B 0) hb2 hj h1 (by
      rw [readBlock_disk]
      omega)
    refine ⟨s.disk, t, ?_, by omega, Grow.refl h _ _, ?_, fun _ => rfl, fun _ => rfl⟩
    · rw [doubleEntry_old hb hi h0, e]
      rfl
    · rw [ref_cons_of_ne (by rwa [e0]), e0]
      exact h1

end Double

/-! ## `get_physical_block_id` -/

/-- The inode in memory has -1 in pointer `i`, and nothing else is changed. -/
structure Stale (i : ℕ) (node node' : Inode) : Prop where
  sameMeta : Inode.SameMeta node node'
  ptr : ∀ j, node'.ptr j = if j = i then neg1 else node.ptr j

section Logical

variable {s : State} (hs : SbOk s) (h : BlkInv s.disk) {n : ℕ} (hn : imap s.disk n = true)
  {node : Inode} (hnode : node.ptr = (inode s.disk n).ptr) {l : ℕ} (hl : l < maxBlocks)

theorem blockPath_fst_direct {l : ℕ} (h1 : l < 10) : (blockPath l).1 = l := by
  unfold blockPath
  rw [if_pos h1]

theorem blockPath_fst_indirect {l : ℕ} (h1 : ¬ l < 10) (h2 : l - 10 < 1024) :
    (blockPath l).1 = 10 := by
  unfold blockPath
  rw [if_neg h1, if_pos h2]

theorem blockPath_fst_double {l : ℕ} (h1 : ¬ l < 10) (h2 : ¬ l - 10 < 1024) :
    (blockPath l).1 = 11 := by
  unfold blockPath
  rw [if_neg h1, if_neg h2]

include h hn in
theorem ptr_lt {i : ℕ} (hi : i < 12) : (inode s.disk n).ptr i < 131072 :=
  h.ref_lt (show Shape s.disk (n, i) [] from ⟨hn, hi, by simp, by simp⟩)

include hs h hn hnode hl

/-- With enough free blocks no allocation fails. -/
theorem getPhysicalBlockId_spent (hle : need s.disk n l ≤ freeCount s.disk) :
    Spent s (need s.disk n l) (getPhysicalBlockId s node n l true).2.2 := by
  have hn' := imap_lt hn
  have hI : node.indirect = (inode s.disk n).ptr 10 := by rw [← hnode]; rfl
  have hD : node.double = (inode s.disk n).ptr 11 := by rw [← hnode]; rfl
  unfold maxBlocks at hl
  unfold need at hle ⊢
  unfold getPhysicalBlockId
  simp only [directBlockNum, indirectBlockNum, doubleIndirectBlockNum, and_true]
  by_cases h1 : l < 10
  · have hdir : node.direct l = (inode s.disk n).ptr l := by rw [← hnode, Inode.ptr_direct _ h1]
    simp only [h1, if_true, hdir] at hle ⊢
    by_cases h0 : (inode s.disk n).ptr l = 0
    · rw [if_pos h0] at hle
      simp only [h0, if_true]
      rcases allocBlock_cases hs with ⟨b, hb, -, e, hc⟩ | ⟨hz, -⟩
      · have hx : (node.setDirect l b).direct l = b := by
          rw [← Inode.ptr_direct _ h1, Inode.ptr_setDirect _ h1, if_pos rfl, u32_of_lt (by omega)]
        simp only [e, hx, ne_neg1 hb, if_false, writeInode_eq _ hn']
        exact ⟨rfl, by rw [State.put_disk, freeCount_putInode]; exact hc⟩
      · omega
    · simp only [h0, if_false]
      exact ⟨rfl, Nat.add_zero _⟩
  · by_cases h2 : l - 10 < 1024
    · simp only [h1, h2, if_true, if_false, hI] at hle ⊢
      by_cases h0 : (inode s.disk n).ptr 10 = 0
      · rw [if_pos h0] at hle
        simp only [h0, if_true]
        rcases allocBlock_cases hs with ⟨b, hb, hfree, ha, -⟩ | ⟨hz, -⟩
        swap
        · omega
        obtain ⟨d, t, -, e1, e2, hs1, -, -, -, hbm, hidx⟩ := indexRoot_new hs h hn hnode
          (by omega) h0 (fun b j => Inode.ptr_setIndirect node b j) hb hfree ha
        have hbi : (node.setIndirect b).indirect = b := u32_of_lt (by omega)
        have hcount := freeCount_mark hb hfree hbm
        simp only [e1, e2, hbi, ne_neg1 hb, if_false]
        obtain ⟨hf, hc⟩ := indexEntry_spent hs1 hb h2 (by
          rw [State.put_disk, if_pos (hidx _)]
          omega)
        rw [State.put_disk, if_pos (hidx _)] at hc
        exact ⟨hf, by omega⟩
      · rw [if_neg h0] at hle
        simp only [h0, if_false]
        exact indexEntry_spent hs (ptr_lt h hn (by omega)) h2 hle
    · have hi : (l - 1034) / 1024 < 1024 := by omega
      have hj : (l - 1034) % 1024 < 1024 := by omega
      have e1 : l - 10 - 1024 = l - 1034 := by omega
      have e2 : l - 1034 < 1024 * 1024 := by omega
      simp only [h1, h2, e1, e2, if_true, if_false, hD] at hle ⊢
      by_cases h0 : (inode s.disk n).ptr 11 = 0
      · rw [if_pos h0] at hle
        simp only [h0, if_true]
        rcases allocBlock_cases hs with ⟨b, hb, hfree, ha, -⟩ | ⟨hz, -⟩
        swap
        · omega
        obtain ⟨d, t, hb0, e1, e2, hs1, hF, hF', -, hbm, hidx⟩ := indexRoot_new hs h hn hnode
          (by omega) h0 (fun b j => Inode.ptr_setDouble node b j) hb hfree ha
        have hbi : (node.setDouble b).double = b := u32_of_lt (by omega)
        have hcount := freeCount_mark hb hfree hbm
        simp only [e1, e2, hbi, ne_neg1 hb, if_false]
        obtain ⟨hf, hc⟩ := doubleEntry_spent (k := 2) hs1 hF.inv ((hF.imap n).trans hn)
          hi hj hF' hb0 (by rw [State.put_disk, if_pos (hidx _)]) (by rw [State.put_disk]; omega)
        rw [State.put_disk] at hc
        exact ⟨hf, by omega⟩
      · rw [if_neg h0] at hle
        simp only [h0, if_false]
        exact doubleEntry_spent hs h hn hi hj rfl h0 rfl hle

/-- With enough free blocks the logical block has a block afterwards. -/
theorem getPhysicalBlockId_room (hle : need s.disk n l ≤ freeCount s.disk) :
    ∃ d t node', getPhysicalBlockId s node n l true = (pblk d n l, node', s.put d t) ∧
      Grow n l s.disk d ∧ pblk d n l ≠ 0 ∧ NodeOf node node' n d ∧
      (inode d n = inode s.disk n ∨ inode d n = node') ∧
      freeCount d + need s.disk n l = freeCount s.disk := by
  cases hfl : s.allocFailed with
  | false =>
    obtain ⟨h1, h2⟩ := getPhysicalBlockId_spent hs h hn hnode hl hle
    obtain ⟨d, t, node', e, hG, h0, hN, hi⟩ :=
      getPhysicalBlockId_grow hs h hn hnode hl (h1.trans hfl)
    rw [e] at h2
    exact ⟨d, t, node', e, hG, h0, hN, hi, h2⟩
  | true =>
    -- the same on the state without the mark
    have hs0 : SbOk { s with allocFailed := false } := ⟨hs.valid, hs.sb, hs.on⟩
    obtain ⟨h1, h2⟩ := getPhysicalBlockId_spent hs0 h hn hnode hl hle
    obtain ⟨d, t, node', e, hG, h0, hN, hi⟩ := getPhysicalBlockId_grow hs0 h hn hnode hl h1
    rw [e] at h2
    refine ⟨d, t, node', ?_, hG, h0, hN, hi, h2⟩
    rw [State.eq_fail hfl, getPhysicalBlockId_fail, e]
    rfl

/-- With too few free blocks: -1. What is on the disk is a growth all the same, and there is no free
block any more. The inode in memory is that of the disk, or its pointer could not be allocated. -/
theorem getPhysicalBlockId_short (hlt : freeCount s.disk < need s.disk n l) :
    ∃ d t node', getPhysicalBlockId s node n l true = (neg1, node', (s.put d t).fail) ∧
      freeCount d = 0 ∧ Grow n l s.disk d ∧ pblk d n l = 0 ∧ (freeCount s.disk = 0 → d = s.disk) ∧
      (((inode d n).ptr (blockPath l).1 = 0 ∧ d = s.disk ∧ Stale (blockPath l).1 node node') ∨
        ((inode d n).ptr (blockPath l).1 ≠ 0 ∧ NodeOf node node' n d ∧
          (inode d n = inode s.disk n ∨ inode d n = node'))) := by
  have hI : node.indirect = (inode s.disk n).ptr 10 := by rw [← hnode]; rfl
  have hD : node.double = (inode s.disk n).ptr 11 := by rw [← hnode]; rfl
  have hneg : u32 neg1 = neg1 := rfl
  unfold maxBlocks at hl
  unfold need at hlt
  unfold getPhysicalBlockId
  simp only [directBlockNum, indirectBlockNum, doubleIndirectBlockNum, and_true]
  by_cases h1 : l < 10
  · have hdir : node.direct l = (inode s.disk n).ptr l := by rw [← hnode, Inode.ptr_direct _ h1]
    rw [if_pos h1] at hlt
    have h0 : (inode s.disk n).ptr l = 0 := by
      by_contra h0
      rw [if_neg h0] at hlt
      omega
    rw [if_pos h0] at hlt
    rcases allocBlock_cases hs with ⟨b, -, -, -, hc⟩ | ⟨hz, e⟩
    · omega
    have hx : (node.setDirect l neg1).direct l = neg1 := by
      rw [← Inode.ptr_direct _ h1, Inode.ptr_setDirect _ h1, if_pos rfl, hneg]
    rw [blockPath_fst_direct h1]
    simp only [h1, if_true, hdir, h0, e, hx]
    refine ⟨s.disk, s.temp, _, rfl, hz, Grow.refl h n l, (pblk_direct _ _ h1).trans h0,
      fun _ => rfl, Or.inl ⟨h0, rfl, ⟨rfl, rfl, rfl, rfl⟩, fun j => ?_⟩⟩
    rw [Inode.ptr_setDirect _ h1, hneg]
  rw [if_neg h1] at hlt
  by_cases h2 : l - 10 < 1024
  · have hp : Shape s.disk (n, 10) [l - 10] := ⟨hn, by simp, by simp, by simpa using h2⟩
    rw [if_pos h2] at hlt
    rw [blockPath_fst_indirect h1 h2]
    simp only [h1, h2, if_true, if_false, hI]
    by_cases h0 : (inode s.disk n).ptr 10 = 0
    · rw [if_pos h0] at hlt
      simp only [h0, if_true]
      rcases allocBlock_cases hs with ⟨b, hb, hfree, ha, -⟩ | ⟨hz, ha⟩
      · obtain ⟨d, t, hb0, e1, e2, hs1, hF, hF', hx, hbm, hidx⟩ := indexRoot_new hs h hn hnode
          (by omega) h0 (fun b j => Inode.ptr_setIndirect node b j) hb hfree ha
        have hbi : (node.setIndirect b).indirect = b := u32_of_lt (by omega)
        have hcount := freeCount_mark hb hfree hbm
        obtain ⟨t', e3⟩ := indexEntry_short hs1 hb h2 (hidx _) (by rw [State.put_disk]; omega)
        simp only [e1, e2, hbi, ne_neg1 hb, if_false, e3]
        refine ⟨d, t', _, rfl, by omega, hF.grow_index hn (by simp) l, ?_, fun hz => by omega,
          Or.inr ⟨by rw [hF']; exact hb0, ⟨⟨rfl, rfl, rfl, rfl⟩, by rw [hx]⟩, Or.inr hx⟩⟩
        rw [pblk_indirect _ _ (by omega) h2, ref_cons_of_ne hF.filled]
        show idx d ((inode d n).ptr 10) _ = 0
        rw [hF']
        exact hidx _
      · have hx : (node.setIndirect neg1).indirect = neg1 := rfl
        simp only [allocIndexBlock_short hs (by omega), hx, if_true]
        refine ⟨s.disk, s.temp, _, rfl, by omega, Grow.refl h n l, ?_, fun _ => rfl,
          Or.inl ⟨h0, rfl, ⟨rfl, rfl, rfl, rfl⟩, fun j => ?_⟩⟩
        · rw [pblk_indirect _ _ (by omega) h2]
          exact ref_cons_of_eq h0
        · rw [Inode.ptr_setIndirect, hneg]
    · rw [if_neg h0] at hlt
      have he : idx s.disk ((inode s.disk n).ptr 10) (l - 10) = 0 := by
        by_contra he
        rw [if_neg he] at hlt
        omega
      rw [if_pos he] at hlt
      obtain ⟨t, e⟩ := indexEntry_short hs (ptr_lt h hn (by omega)) h2 he (by omega)
      simp only [h0, if_false, e]
      refine ⟨s.disk, t, node, rfl, by omega, Grow.refl h n l, ?_, fun _ => rfl,
        Or.inr ⟨h0, ⟨Inode.SameMeta.refl _, hnode⟩, Or.inl rfl⟩⟩
      rw [pblk_indirect _ _ (by omega) h2,
        ref_cons_of_ne (show ref (cells s.disk) (n, 10) [] ≠ 0 from h0)]
      exact he
  · have hi : (l - 1034) / 1024 < 1024 := by omega
    have hj : (l - 1034) % 1024 < 1024 := by omega
    have e1 : l - 10 - 1024 = l - 1034 := by omega
    have e2 : l - 1034 < 1024 * 1024 := by omega
    have el : 1034 + 1024 * ((l - 1034) / 1024) + (l - 1034) % 1024 = l := by omega
    rw [if_neg h2] at hlt
    have hpd : ∀ d, pblk d n l = _ := fun d => pblk_double d n (show 1034 ≤ l by omega)
    rw [blockPath_fst_double h1 h2]
    simp only [h1, h2, e1, e2, if_true, if_false, hD]
    by_cases h0 : (inode s.disk n).ptr 11 = 0
    · rw [if_pos h0] at hlt
      simp only [h0, if_true]
      rcases allocBlock_cases hs with ⟨b, hb, hfree, ha, -⟩ | ⟨hz, ha⟩
      · obtain ⟨d, t, hb0, e3, e4, hs1, hF, hF', hx, hbm, hidx⟩ := indexRoot_new hs h hn hnode
          (by omega) h0 (fun b j => Inode.ptr_setDouble node b j) hb hfree ha
        have hbi : (node.setDouble b).double = b := u32_of_lt (by omega)
        have hcount := freeCount_mark hb hfree hbm
        obtain ⟨d2, t2, e5, hz, hG, hr, hin, -⟩ := doubleEntry_short hs1 hF.inv
          ((hF.imap n).trans hn) hi hj hF' hb0 (by
            rw [State.put_disk, if_pos (hidx _)]
            omega)
        rw [el] at hG
        simp only [State.put_disk, State.put_put] at e5 hG hin
        simp only [e3, e4, hbi, ne_neg1 hb, if_false, e5]
        refine ⟨d2, t2, _, rfl, hz, (hF.grow_index hn (by simp) l).trans hn hG,
          (hpd _).trans hr,
          fun hz => by omega, Or.inr ⟨?_, ⟨⟨rfl, rfl, rfl, rfl⟩, ?_⟩, Or.inr ?_⟩⟩
        · rw [hin, hF']
          exact hb0
        · rw [hin, hx]
        · rw [hin, hx]
      · have hx : (node.setDouble neg1).double = neg1 := rfl
        simp only [allocIndexBlock_short hs (by omega), hx, if_true]
        refine ⟨s.disk, s.temp, _, rfl, by omega, Grow.refl h n l, ?_, fun _ => rfl,
          Or.inl ⟨h0, rfl, ⟨rfl, rfl, rfl, rfl⟩, fun j => ?_⟩⟩
        · exact (hpd _).trans (ref_cons_of_eq (ref_cons_of_eq h0))
        · rw [Inode.ptr_setDouble, hneg]
    · rw [if_neg h0] at hlt
      obtain ⟨d, t, e3, hz, hG, hr, hin, hsame⟩ := doubleEntry_short hs h hn hi hj rfl h0 hlt
      rw [el] at hG
      simp only [h0, if_false, e3]
      refine ⟨d, t, node, rfl, hz, hG, (hpd _).trans hr, hsame, Or.inr ⟨by rw [hin]; exact h0,
        ⟨Inode.SameMeta.refl _, by rw [hin, hnode]⟩, Or.inl (hin n)⟩⟩

end Logical

end RiscvKernel.Fs
