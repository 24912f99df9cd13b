import RiscvKernel.Fs.System
import RiscvKernel.Fs.Space

/-!
# The rounds of a write

`do_write` copies its buffer block by block. What it leaves behind depends on what the rounds find: a block that is
allocated in a round is not cleared, the position wraps at `2 ^ 32`, and a round that finds no free block for a pointer
of the inode itself puts -1 there. `EveryRound` says of each round what it finds, and `writeLoop_rounds` what the loop
does, whether it runs to its end or stops at a full disk.
-/

namespace RiscvKernel.Fs

open Lib Lib.Forest

/-! ## Rounds -/

/-- The block that a round of `writeLoop` stores its bytes in, -1 if there is none. -/
def roundBlock (inodeNum pos : ℕ) (node : Inode) (s : State) : ℕ :=
  (getPhysicalBlockId s node inodeNum (pos / blockSize) true).1

/-- The inode after a round. -/
def roundInode (inodeNum len total pos : ℕ) (node : Inode) (s : State) : Inode :=
  let (_, node, _) := getPhysicalBlockId s node inodeNum (pos / blockSize) true
  let pos := u32 (pos + chunk pos (len - total))
  if pos > node.size then node.setSize pos else node

/-- The state after a round. -/
def roundState (inodeNum len : ℕ) (buff : Mem) (total pos : ℕ) (node : Inode) (s : State) : State :=
  let (pBlock, _, s) := getPhysicalBlockId s node inodeNum (pos / blockSize) true
  let s := readBlock s pBlock 0
  let s := s.setTemp (blit s.temp (pos % blockSize) buff total (chunk pos (len - total)))
  writeBlock s pBlock 0

/-- Every round of `writeLoop` finds `P`: of the number of bytes stored so far, the position, the inode and the state. -/
def EveryRound (P : ℕ → ℕ → Inode → State → Prop) (inodeNum len : ℕ) (buff : Mem) :
    ℕ → ℕ → ℕ → Inode → State → Prop
  | 0, _, _, _, _ => True
  | n + 1, total, pos, node, s =>
    total < len → P total pos node s ∧ (roundBlock inodeNum pos node s ≠ neg1 →
      EveryRound P inodeNum len buff n (total + chunk pos (len - total)) (u32 (pos + chunk pos (len - total)))
        (roundInode inodeNum len total pos node s) (roundState inodeNum len buff total pos node s))

instance decidableEveryRound {P : ℕ → ℕ → Inode → State → Prop} [∀ a b c d, Decidable (P a b c d)] {inodeNum len : ℕ}
    {buff : Mem} : ∀ n total pos node s, Decidable (EveryRound P inodeNum len buff n total pos node s)
  | 0, _, _, _, _ => isTrue trivial
  | n + 1, _, _, _, _ =>
    have := @decidableEveryRound P _ inodeNum len buff n
    inferInstanceAs (Decidable (_ → _ ∧ (_ → EveryRound P inodeNum len buff n _ _ _ _)))

/-- Every round of `do_write` finds `P`. -/
def WriteRounds (P : ℕ → ℕ → Inode → State → Prop) (s : State) (fd : ℤ) (buff : Mem) (length : ℤ) : Prop :=
  EveryRound P (s.fdescArray fd.toNat).inodeNum length.toNat buff length.toNat 0 (s.fdescArray fd.toNat).pos
    (getInode s (s.fdescArray fd.toNat).inodeNum) s

instance (P : ℕ → ℕ → Inode → State → Prop) [∀ a b c d, Decidable (P a b c d)] (s : State) (fd : ℤ) (buff : Mem)
    (length : ℤ) : Decidable (WriteRounds P s fd buff length) :=
  inferInstanceAs (Decidable (EveryRound ..))

theorem EveryRound.mono {P Q : ℕ → ℕ → Inode → State → Prop} (hPQ : ∀ a b c d, P a b c d → Q a b c d)
    {inodeNum len : ℕ} {buff : Mem} {fuel total pos : ℕ} {node : Inode} {s : State}
    (h : EveryRound P inodeNum len buff fuel total pos node s) :
    EveryRound Q inodeNum len buff fuel total pos node s := by
  induction fuel generalizing total pos node s with
  | zero => trivial
  | succ fuel ih =>
    intro hlt
    obtain ⟨h1, h2⟩ := h hlt
    exact ⟨hPQ _ _ _ _ h1, fun hne => ih (h2 hne)⟩

/-- When a pointer of the inode itself is missing, `alloc_block` has a block for it. -/
def RoundRoom (pos : ℕ) (node : Inode) (s : State) : Prop :=
  node.ptr (blockPath (pos / blockSize)).1 = 0 → (allocBlock s).1 ≠ neg1

instance (pos : ℕ) (node : Inode) (s : State) : Decidable (RoundRoom pos node s) :=
  inferInstanceAs (Decidable (_ → _))

/-- If the round has to allocate its block, that block holds zeros where `Q` holds and the round does not store. -/
def RoundClean (Q : ℕ → Prop) (inodeNum len total pos : ℕ) (node : Inode) (s : State) : Prop :=
  pblk s.disk inodeNum (pos / blockSize) = 0 → roundBlock inodeNum pos node s ≠ neg1 →
    ∀ i < blockSize, Q (pos / blockSize * blockSize + i) →
      ¬ (pos % blockSize ≤ i ∧ i < pos % blockSize + chunk pos (len - total)) →
      block s.disk (roundBlock inodeNum pos node s) i = 0#8

instance (Q : ℕ → Prop) [DecidablePred Q] (inodeNum len total pos : ℕ) (node : Inode) (s : State) :
    Decidable (RoundClean Q inodeNum len total pos node s) :=
  -- the kernel is much faster on a list than on a bounded quantifier
  decidable_of_iff (pblk s.disk inodeNum (pos / blockSize) = 0 → roundBlock inodeNum pos node s ≠ neg1 →
    ∀ i ∈ List.range blockSize, Q (pos / blockSize * blockSize + i) →
      ¬ (pos % blockSize ≤ i ∧ i < pos % blockSize + chunk pos (len - total)) →
      block s.disk (roundBlock inodeNum pos node s) i = 0#8) (by simp only [List.mem_range]; rfl)

/-- No byte is stored from position `B` on, the position wraps at the end of the write only, and a new block is clean
where `Q` holds. -/
structure RoundOk (Q : ℕ → Prop) (B inodeNum len total pos : ℕ) (node : Inode) (s : State) : Prop where
  top : roundBlock inodeNum pos node s ≠ neg1 → pos + chunk pos (len - total) ≤ B
  stays : roundBlock inodeNum pos node s ≠ neg1 →
    pos + chunk pos (len - total) < 2 ^ 32 ∨ total + chunk pos (len - total) = len
  clean : RoundClean Q inodeNum len total pos node s

instance (Q : ℕ → Prop) [DecidablePred Q] (B inodeNum len total pos : ℕ) (node : Inode) (s : State) :
    Decidable (RoundOk Q B inodeNum len total pos node s) :=
  decidable_of_iff (_ ∧ _ ∧ _) ⟨fun h => ⟨h.1, h.2.1, h.2.2⟩, fun h => ⟨h.top, h.stays, h.clean⟩⟩

/-! ## What the bytes are afterwards -/

/-- The bytes of inode `n` from `pos` to `pos + k` have been stored, the others are as before where a block was, and the
bytes in `Q` are zero where no block was. No hole outside of the range is filled. -/
structure Landed (Q : ℕ → Prop) (n pos k : ℕ) (buff : Mem) (a : ℕ) (d d' : Mem) : Prop where
  stored : Stored n pos k buff a d d'
  zero : ∀ o, Q o → (o < pos ∨ pos + k ≤ o) → pblk d n (o / 4096) = 0 → fileByte d' n o = 0#8
  hole : ∀ l, (l * 4096 + 4096 ≤ pos ∨ pos + k ≤ l * 4096) → pblk d n l = 0 → pblk d' n l = 0

section landed

variable {Q : ℕ → Prop} {n pos k k' a : ℕ} {buff : Mem} {d d' d'' : Mem}

theorem fileByte_hole {o : ℕ} (h : BlkInv d) (h0 : pblk d n (o / 4096) = 0) : fileByte d n o = 0#8 := by
  unfold fileByte
  rw [fileBlock_of_zero h h0]

theorem Landed.grow {l : ℕ} (h : BlkInv d) (hn : imap d n = true) (hg : Grow n l d d') (h0 : pblk d' n l = 0) :
    Landed Q n pos 0 buff a d d' := by
  have hhole : ∀ k, pblk d n k = 0 → pblk d' n k = 0 := fun k hb => by
    by_cases hk : k = l
    · exact hk ▸ h0
    · exact (hg.pblk_ne n _ hn fun e => hk e.2).trans hb
  refine ⟨⟨hg.only h, fun o h1 h2 => by omega, fun o _ hb => ?_⟩, fun o _ _ hb => fileByte_hole hg.inv (hhole _ hb),
    fun k _ => hhole k⟩
  · have e := hg.pblk_eq hn hb
    refine ⟨by rw [e]; exact hb, ?_⟩
    unfold fileByte
    rw [hg.fileBlock_eq h hn (Or.inr hb)]

theorem Landed.append (h : Landed Q n pos k buff a d d') (h' : Landed Q n (pos + k) k' buff (a + k) d' d'') :
    Landed Q n pos (k + k') buff a d d'' := by
  refine ⟨h.stored.append h'.stored, fun o hQ ho h0 => ?_, fun l hl h0 =>
    h'.hole l (by omega) (h.hole l (by omega) h0)⟩
  by_cases hm : pblk d' n (o / 4096) = 0
  · exact h'.zero o hQ (by omega) hm
  · exact (h'.stored.kept o (by omega) hm).2.trans (h.zero o hQ (by omega) h0)

theorem Landed.putMeta (h : Landed Q n pos k buff a d d') (hn : imap d n = true) {x : Inode}
    (hx : x.ptr = (inode d' n).ptr) : Landed Q n pos k buff a d (putInode d' n x) := by
  have hn' : imap d' n = true := by rwa [h.stored.only.imap]
  refine ⟨h.stored.putMeta hn hx, fun o hQ ho h0 => ?_, fun l hl h0 => (pblk_putMeta hn' hx hn' l).trans (h.hole l hl h0)⟩
  unfold fileByte
  rw [fileBlock_putMeta hn' hx hn']
  exact h.zero o hQ ho h0

/-- The bytes outside of the range that are in `Q` keep their values. -/
theorem Landed.byte_eq (h : Landed Q n pos k buff a d d') (hb : BlkInv d) {o : ℕ} (hQ : Q o)
    (ho : o < pos ∨ pos + k ≤ o) : fileByte d' n o = fileByte d n o := by
  by_cases h0 : pblk d n (o / 4096) = 0
  · rw [fileByte_hole hb h0]
    exact h.zero o hQ ho h0
  · exact (h.stored.kept o ho h0).2

end landed

/-- One round on the disk. -/
theorem landed_round {Q : ℕ → Prop} {d d' t : Mem} (buff : Mem) (h : BlkInv d) {n pos k a : ℕ} (hn : imap d n = true)
    (hk0 : 0 < k) (hk : pos % 4096 + k ≤ 4096) (hg : Grow n (pos / 4096) d d') (hb : pblk d' n (pos / 4096) ≠ 0)
    (ht : ∀ i < 4096, t i = fileBlock d' n (pos / 4096) i)
    (hclean : pblk d n (pos / 4096) = 0 → ∀ i < 4096, Q (pos / 4096 * 4096 + i) →
      ¬ (pos % 4096 ≤ i ∧ i < pos % 4096 + k) → block d (pblk d' n (pos / 4096)) i = 0#8) :
    Landed Q n pos k buff a d
      (putBlock d' (pblk d' n (pos / 4096)) (blit t (pos % 4096) buff a k) 0) := by
  have hn' : imap d' n = true := by rwa [hg.imap]
  have hS := stored_round buff (a := a) h hn hk hg hb ht
  refine ⟨hS, fun o hQ ho h0 => ?_, fun l hl h0 => ?_⟩
  swap
  · rw [pblk_putData hg.inv hn' hb _ 0 hn', hg.pblk_ne n l hn fun e => by have := e.2; omega]
    exact h0
  by_cases hl : o / 4096 = pos / 4096
  · rw [hl] at h0
    unfold fileByte
    rw [hl, fileBlock_putData_self hg.inv hn' hb _ 0 (Nat.mod_lt _ (by norm_num)), Nat.zero_add, blit_out (by omega),
      ht _ (Nat.mod_lt _ (by norm_num))]
    unfold fileBlock
    rw [(hg.fresh h0 hb).2]
    refine hclean h0 _ (Nat.mod_lt _ (by norm_num)) ?_ (by omega)
    rwa [← hl, Nat.div_add_mod']
  · have e : pblk d' n (o / 4096) = 0 := (hg.pblk_ne n _ hn fun e => hl e.2).trans h0
    refine fileByte_hole hS.only.inv ?_
    rwa [pblk_putData hg.inv hn' hb _ 0 hn']

/-! ## The loop -/

/-- The number of blocks that `len` bytes from `pos` on lie in. -/
def blocks (pos len : ℕ) : ℕ := if len = 0 then 0 else (pos + len - 1) / 4096 - pos / 4096 + 1

theorem blocks_chunk (pos : ℕ) {len : ℕ} (h : 0 < len) :
    blocks pos len = 1 + blocks (pos + chunk pos len) (len - chunk pos len) := by
  unfold blocks chunk
  simp only [blockSize]
  split_ifs <;> omega

/-- The state is `s` with other contents of the disk and of `TEMP_BUF`; an allocation may have failed. -/
def Changed (s : State) (d : Mem) (s' : State) : Prop := ∃ t, s' = s.put d t ∨ s' = (s.put d t).fail

/-- What `writeLoop` returns after `k` more bytes. It stops early only at a disk without free blocks. -/
structure LoopEnd (Q : ℕ → Prop) (B n len : ℕ) (buff : Mem) (total pos : ℕ) (node : Inode) (s : State) (k : ℕ) (d : Mem)
    (r : ℕ × ℕ × Inode × State) : Prop where
  count : r.1 = total + k
  place : r.2.1 = u32 (pos + k)
  bound : total + k ≤ len
  top : 0 < k → pos + k ≤ B
  state : Changed s d r.2.2.2
  landed : Landed Q n pos k buff total s.disk d
  ptr : r.2.2.1.ptr = (inode d n).ptr
  type : r.2.2.1.type = node.type
  nlinks : r.2.2.1.nlinks = node.nlinks
  size : node.size ≤ r.2.2.1.size ∧ r.2.2.1.size ≤ max node.size (pos + k) ∧
    (0 < k → pos + k < 2 ^ 32 → pos + k ≤ r.2.2.1.size)
  short : total + k = len ∨ freeCount d = 0
  spent : freeCount s.disk ≤ freeCount d + 3 * blocks pos (len - total)

section loop

variable {Q : ℕ → Prop} {B n len : ℕ} {buff : Mem}

theorem need_pos {d : Mem} {n l : ℕ} (h : (inode d n).ptr (blockPath l).1 = 0) : 0 < need d n l := by
  unfold need
  by_cases h1 : l < 10
  · rw [blockPath_fst_direct h1] at h
    rw [if_pos h1, if_pos h]
    exact Nat.one_pos
  by_cases h2 : l - 10 < 1024
  · rw [blockPath_fst_indirect h1 h2] at h
    rw [if_neg h1, if_pos h2, if_pos h]
    exact Nat.two_pos
  · rw [blockPath_fst_double h1 h2] at h
    rw [if_neg h1, if_neg h2, if_pos h]
    exact Nat.succ_pos 2

/-- The loop is at its end. -/
theorem LoopEnd.done {total pos : ℕ} {node : Inode} {s : State} (h : BlkInv s.disk)
    (hptr : node.ptr = (inode s.disk n).ptr) (ht : total = len) :
    LoopEnd Q B n len buff total pos node s 0 s.disk (total, u32 pos, node, s) where
  count := rfl
  place := rfl
  bound := by omega
  top := nofun
  state := ⟨s.temp, Or.inl rfl⟩
  landed := ⟨Stored.refl h _ _ _ _, fun o _ _ h0 => fileByte_hole h h0, fun _ _ h0 => h0⟩
  ptr := hptr
  type := rfl
  nlinks := rfl
  size := ⟨le_rfl, le_max_left _ _, nofun⟩
  short := Or.inl ht
  spent := Nat.le_add_right _ _

/-- The loop goes on after a round. -/
theorem LoopEnd.round {total pos k k' : ℕ} {node node1 node2 : Inode} {s : State} {d d' t : Mem}
    {r : ℕ × ℕ × Inode × State} (hB : pos + k ≤ B) (hk : k = chunk pos (len - total))
    (hp : Landed Q n pos k buff total s.disk d) (hm : Inode.SameMeta node node1)
    (hn2 : node2 = if u32 (pos + k) > node1.size then node1.setSize (u32 (pos + k)) else node1)
    (hpos : pos + k ≤ 2 ^ 32) (hlt : total < len) (hf : freeCount s.disk ≤ freeCount d + 3)
    (h : LoopEnd Q B n len buff (total + k) (pos + k) node2 (s.put d t) k' d' r) :
    LoopEnd Q B n len buff total pos node s (k + k') d' r := by
  have hb := blocks_chunk pos (show 0 < len - total by omega)
  rw [← hk, Nat.sub_sub] at hb
  have hx : node2.type = node1.type ∧ node2.nlinks = node1.nlinks ∧ node1.size ≤ node2.size ∧
      node2.size ≤ max node1.size (pos + k) ∧ (pos + k < 2 ^ 32 → pos + k ≤ node2.size) := by
    have hle : u32 (pos + k) ≤ pos + k := Nat.mod_le _ _
    have hw : pos + k < 2 ^ 32 → u32 (pos + k) = pos + k := u32_of_lt
    have hu : u32 (u32 (pos + k)) = u32 (pos + k) := u32_of_lt (Nat.mod_lt _ (by norm_num))
    rw [hn2]
    split_ifs with hgt
    · refine ⟨rfl, rfl, ?_, ?_, ?_⟩ <;> rw [Inode.size_setSize, hu] <;> omega
    · exact ⟨rfl, rfl, le_rfl, le_max_left _ _, fun hc => by rw [hw hc] at hgt; omega⟩
  obtain ⟨x1, x2, x3, x4, x5⟩ := hx
  obtain ⟨z1, z2, z3⟩ := h.size
  have hsz := hm.size
  refine ⟨by rw [h.count]; omega, by rw [h.place, Nat.add_assoc], by have := h.bound; omega,
    fun _ => ?_, ?_, ?_, h.ptr,
    (h.type.trans x1).trans hm.type, (h.nlinks.trans x2).trans hm.nlinks, ⟨by omega, by omega, fun _ hc => ?_⟩,
    by have := h.short; omega, ?_⟩
  · by_cases hk0 : k' = 0
    · omega
    · have := h.top (by omega)
      omega
  · obtain ⟨t', e⟩ := h.state
    exact ⟨t', e⟩
  · exact hp.append h.landed
  · by_cases hk0 : k' = 0
    · subst hk0
      have := x5 (by omega)
      omega
    · have := z3 (by omega) (by omega)
      omega
  · have := h.spent
    rw [State.put_disk] at this
    omega

/-- What `writeLoop` returns when it has lost a pointer: the inode in memory has -1 there. -/
structure LoopLost (s : State) (r : ℕ × ℕ × Inode × State) : Prop where
  imap : ∀ m, imap r.2.2.2.disk m = Fs.imap s.disk m
  failed : r.2.2.2.allocFailed = true
  ptr : ∃ i < 12, r.2.2.1.ptr i = neg1

theorem blockPath_fst_lt (l : ℕ) : (blockPath l).1 < 12 := by
  unfold blockPath
  split_ifs <;> dsimp only <;> omega

/-- What the loop of `do_write` does: a pointer is lost when a round finds no block for it, and only then. -/
theorem writeLoop_rounds : ∀ (fuel total pos : ℕ) (node : Inode) (s : State), SbOk s → BlkInv s.disk →
    imap s.disk n = true → node.ptr = (inode s.disk n).ptr → total ≤ len → len - total ≤ fuel → pos ≤ 2 ^ 32 →
    (total < len → pos < 2 ^ 32) →
    EveryRound (RoundOk Q B n len) n len buff fuel total (u32 pos) node s →
    (EveryRound (fun _ => RoundRoom) n len buff fuel total (u32 pos) node s ∧
      ∃ k d, LoopEnd Q B n len buff total pos node s k d (writeLoop n len buff fuel total (u32 pos) node s)) ∨
    (¬ EveryRound (fun _ => RoundRoom) n len buff fuel total (u32 pos) node s ∧
      LoopLost s (writeLoop n len buff fuel total (u32 pos) node s)) := by
  intro fuel
  induction fuel with
  | zero =>
    intro total pos node s _ h _ hptr h1 h2 _ _ _
    exact Or.inl ⟨trivial, 0, s.disk, .done h hptr (by omega)⟩
  | succ fuel ih =>
    intro total pos node s hs h hn hptr h1 h2 h3 h4 hr
    rw [writeLoop, EveryRound]
    by_cases hlt : total < len
    swap
    · rw [if_neg hlt]
      exact Or.inl ⟨fun h => absurd h hlt, 0, s.disk, .done h hptr (by omega)⟩
    have hpos := h4 hlt
    rw [if_pos hlt, u32_of_lt hpos]
    rw [u32_of_lt hpos] at hr
    obtain ⟨hok, hr⟩ := hr hlt
    have hk1 := chunk_le pos (len - total)
    have hk2 := chunk_pos pos (show 0 < len - total by omega)
    have hk3 := chunk_block pos (len - total)
    have hl := div_lt_maxBlocks hpos
    -- a block for the pointer, when the disk is not full
    have hroom : freeCount s.disk ≠ 0 → RoundRoom pos node s := fun hf _ => by
      rcases allocBlock_cases hs with ⟨b, hb, -, ha, -⟩ | ⟨hz, -⟩
      · rw [ha]
        exact ne_neg1 hb
      · exact absurd hz hf
    simp only [roundBlock, roundInode, roundState, blockSize, hlt, true_imp_iff] at hr ⊢
    by_cases hneed : need s.disk n (pos / 4096) ≤ freeCount s.disk
    · obtain ⟨d, t, node1, e, hg, hb, hno, -, hfree⟩ := getPhysicalBlockId_room hs h hn hptr hl hneed
      have hn1 : imap d n = true := by rwa [hg.imap]
      obtain ⟨t', e', ht'⟩ := readBlock_fileBlock (s := s.put d t) hg.inv hn1 (pos / 4096)
      simp only [State.put_disk, State.put_put] at e' ht'
      have hlt' := hg.inv.pblk_lt hn1 (pos / 4096)
      have hgets : roundBlock n pos node s = pblk d n (pos / 4096) := congrArg Prod.fst e
      have hstays := hok.stays (by rw [hgets]; exact ne_neg1 hlt')
      have htop := hok.top (by rw [hgets]; exact ne_neg1 hlt')
      have hclean := hok.clean
      unfold RoundClean at hclean
      rw [hgets] at hclean
      have hclean := fun h0 => hclean h0 (ne_neg1 hlt')
      simp only [blockSize] at hclean
      have hroom1 : RoundRoom pos node s := by
        by_cases hz : freeCount s.disk = 0
        · intro h0
          have : 0 < need s.disk n (pos / 4096) := need_pos (hptr ▸ h0)
          omega
        · exact hroom hz
      simp only [e, ne_neg1 hlt', ne_eq, not_false_eq_true, true_imp_iff, if_false, e', State.put_temp,
        State.setTemp_eq, State.put_disk, State.put_put, writeBlock_eq _ hlt', hroom1, true_and] at hr ⊢
      generalize hkk : chunk pos (len - total) = k at *
      have hp := landed_round (Q := Q) buff (a := total) h hn hk2 hk3 hg hb ht' hclean
      generalize hd2 : putBlock d (pblk d n (pos / 4096)) (blit t' (pos % 4096) buff total k) 0 = d2 at *
      have hi2 : inode d2 n = inode d n := by rw [← hd2, inode_putBlock]
      have hf2 : freeCount d2 = freeCount d := by rw [← hd2, freeCount_putBlock]
      have hthree := need_le s.disk n (pos / 4096)
      generalize hx : (if u32 (pos + k) > node1.size then node1.setSize (u32 (pos + k)) else node1) = node2 at *
      have hx1 : node2.ptr = node1.ptr := by
        rw [← hx]
        split_ifs <;> rfl
      rcases ih (total + k) (pos + k) node2 (s.put d2 (blit t' (pos % 4096) buff total k))
        (hs.put (hp.stored.only.sb hs.on) _) hp.stored.only.inv (by rw [State.put_disk, hp.stored.only.imap]; exact hn)
        (by rw [State.put_disk, hi2, hx1, hno.ptr]) (by omega) (by omega) (by omega) (by omega) hr with
        ⟨hR, k', d', hE⟩ | ⟨hR, hL⟩
      · exact Or.inl ⟨hR, k + k', d', .round htop hkk.symm hp hno.sameMeta hx.symm (by omega) hlt (by omega) hE⟩
      · exact Or.inr ⟨hR, fun m => (hL.imap m).trans (hp.stored.only.imap m), hL.failed, hL.ptr⟩
    · obtain ⟨d, t, node1, e, hz, hg, hb, hd, hcase⟩ := getPhysicalBlockId_short hs h hn hptr hl (not_le.mp hneed)
      rw [e, if_pos rfl]
      rcases hcase with ⟨h0, rfl, hst⟩ | ⟨h0, hno, -⟩
      · -- the pointer of the inode is missing, and there is no block for it
        refine Or.inr ⟨fun hR => hR.1 (hptr ▸ h0) ?_, fun _ => rfl, rfl, (blockPath (pos / 4096)).1, blockPath_fst_lt _, ?_⟩
        · rcases allocBlock_cases hs with ⟨b, hb, hfree, -, hc⟩ | ⟨-, ha⟩
          · omega
          · rw [ha]
        · rw [hst.ptr, if_pos rfl]
      · refine Or.inl ⟨⟨?_, fun hne => absurd rfl hne⟩, 0, d, rfl, by rw [Nat.add_zero, u32_of_lt hpos], by omega,
          fun hk => absurd hk (lt_irrefl 0),
          ⟨t, Or.inr rfl⟩, .grow h hn hg hb, hno.ptr, hno.sameMeta.type, hno.sameMeta.nlinks,
          ⟨hno.sameMeta.size.ge, by rw [hno.sameMeta.size]; exact le_max_left _ _, fun hk => absurd hk (lt_irrefl 0)⟩,
          Or.inr hz, ?_⟩
        · by_cases hz0 : freeCount s.disk = 0
          · intro h1
            rw [hd hz0] at h0
            exact absurd (hptr ▸ h1) h0
          · exact hroom hz0
        · have hthree := need_le s.disk n (pos / 4096)
          have := blocks_chunk pos (show 0 < len - total by omega)
          omega

end loop

theorem everyRound_true {inodeNum len : ℕ} {buff : Mem} {fuel total pos : ℕ} {node : Inode} {s : State} :
    EveryRound (fun _ _ _ _ => True) inodeNum len buff fuel total pos node s := by
  induction fuel generalizing total pos node s with
  | zero => trivial
  | succ fuel ih => exact fun _ => ⟨trivial, fun _ => ih⟩

/-- Below `2 ^ 32` no round wraps. -/
theorem EveryRound.below {P : ℕ → ℕ → Inode → State → Prop} {inodeNum len : ℕ} {buff : Mem} {fuel total pos : ℕ}
    {node : Inode} {s : State} (h : EveryRound P inodeNum len buff fuel total pos node s)
    (hpos : pos + (len - total) < 2 ^ 32) :
    EveryRound (fun total pos node s => P total pos node s ∧ pos + chunk pos (len - total) < 2 ^ 32) inodeNum len buff
      fuel total pos node s := by
  induction fuel generalizing total pos node s with
  | zero => trivial
  | succ fuel ih =>
    intro hlt
    have hk := chunk_le pos (len - total)
    obtain ⟨h1, h2⟩ := h hlt
    refine ⟨⟨h1, by omega⟩, fun hne => ih (h2 hne) ?_⟩
    rw [u32_of_lt (by omega)]
    omega

/-! ## The call -/

/-- What `do_write` does with `len` bytes when it stores `k` of them. It stores fewer than `len` bytes only when it leaves
no free block. -/
structure WriteEnd (Q : ℕ → Prop) (B : ℕ) (s : State) (fd : ℤ) (buff : Mem) (len k : ℕ) (d : Mem) (r : ℤ × State) : Prop where
  count : r.1 = k
  bound : k ≤ len
  top : 0 < k → (s.fdescArray fd.toNat).pos + k ≤ B
  state : ∃ t, r.2 = (s.put d t).setPos fd (u32 ((s.fdescArray fd.toNat).pos + k)) ∨
    r.2 = ((s.put d t).setPos fd (u32 ((s.fdescArray fd.toNat).pos + k))).fail
  landed : Landed Q (s.fdescArray fd.toNat).inodeNum (s.fdescArray fd.toNat).pos k buff 0 s.disk d
  type : (inode d (s.fdescArray fd.toNat).inodeNum).type = (inode s.disk (s.fdescArray fd.toNat).inodeNum).type
  nlinks : (inode d (s.fdescArray fd.toNat).inodeNum).nlinks = (inode s.disk (s.fdescArray fd.toNat).inodeNum).nlinks
  size_ge : (inode s.disk (s.fdescArray fd.toNat).inodeNum).size ≤ (inode d (s.fdescArray fd.toNat).inodeNum).size
  size_le : (inode d (s.fdescArray fd.toNat).inodeNum).size ≤
    max (inode s.disk (s.fdescArray fd.toNat).inodeNum).size ((s.fdescArray fd.toNat).pos + k)
  size_end : 0 < k → (s.fdescArray fd.toNat).pos + k < 2 ^ 32 →
    (s.fdescArray fd.toNat).pos + k ≤ (inode d (s.fdescArray fd.toNat).inodeNum).size
  short : k = len ∨ freeCount d = 0
  spent : freeCount s.disk ≤ freeCount d + 3 * blocks (s.fdescArray fd.toNat).pos len

theorem WriteEnd.disk {Q : ℕ → Prop} {B len k : ℕ} {s : State} {fd : ℤ} {buff d : Mem} {r : ℤ × State}
    (h : WriteEnd Q B s fd buff len k d r) : r.2.disk = d := by
  obtain ⟨t, e | e⟩ := h.state
  · rw [e]
    rfl
  · rw [e]
    rfl

/-- What `do_write` does: it loses a pointer when a round finds no block for it, and only then. -/
theorem doWrite_rounds {Q : ℕ → Prop} {B : ℕ} {s : State} (hs : SbOk s) (h : BlkInv s.disk) {fd : ℤ} (ho : s.isOpen fd)
    (hm : (s.fdescArray fd.toNat).mode ≠ oRdonly) (hn : imap s.disk (s.fdescArray fd.toNat).inodeNum = true)
    (hpos : (s.fdescArray fd.toNat).pos < 2 ^ 32) {buff : Mem} {length : ℤ}
    (hr : WriteRounds (RoundOk Q B (s.fdescArray fd.toNat).inodeNum length.toNat) s fd buff length) :
    (WriteRounds (fun _ => RoundRoom) s fd buff length ∧
      ∃ k d, WriteEnd Q B s fd buff length.toNat k d (doWrite s fd buff length)) ∨
    (¬ WriteRounds (fun _ => RoundRoom) s fd buff length ∧
      (∀ m, imap (doWrite s fd buff length).2.disk m = imap s.disk m) ∧
      (doWrite s fd buff length).2.allocFailed = true ∧
      ∃ i < 12, (inode (doWrite s fd buff length).2.disk (s.fdescArray fd.toNat).inodeNum).ptr i = neg1) := by
  have hn' := imap_lt hn
  have hloop := @writeLoop_rounds Q B (s.fdescArray fd.toNat).inodeNum length.toNat buff length.toNat 0
    (s.fdescArray fd.toNat).pos (inode s.disk (s.fdescArray fd.toNat).inodeNum) s hs h hn rfl (Nat.zero_le _) le_rfl
    hpos.le fun _ => hpos
  unfold doWrite WriteRounds at *
  rw [if_neg (not_not_intro ho)]
  rw [u32_of_lt hpos] at hloop
  simp only [if_neg hm, getInode_eq s hn'] at hr ⊢
  have hloop := hloop hr
  generalize writeLoop (s.fdescArray fd.toNat).inodeNum length.toNat buff length.toNat 0 (s.fdescArray fd.toNat).pos
    (inode s.disk (s.fdescArray fd.toNat).inodeNum) s = r at hloop
  obtain ⟨total, pos, node, s'⟩ := r
  rw [writeInode_eq _ hn']
  rcases hloop with ⟨hR, k, d, hE⟩ | ⟨hR, hL⟩
  swap
  · exact Or.inr ⟨hR, fun m => (imap_putInode _ _ _ _).trans (hL.imap m), hL.failed, by
      obtain ⟨i, hi, hp⟩ := hL.ptr
      exact ⟨i, hi, by rw [← hp]; exact congrArg (fun x => Inode.ptr x i) (inode_putInode_self _ _ hn')⟩⟩
  refine Or.inl ⟨hR, ?_⟩
  have hE1 := hE.count
  have hE2 := hE.place
  simp only [Nat.zero_add] at hE1 hE2
  subst hE1 hE2
  rename' total => k
  have hself := inode_putInode_self d node hn'
  obtain ⟨z1, z2, z3⟩ := hE.size
  refine ⟨k, putInode d (s.fdescArray fd.toNat).inodeNum node, rfl, by have := hE.bound; omega, hE.top, ?_,
    hE.landed.putMeta hn hE.ptr, by rw [hself]; exact hE.type, by rw [hself]; exact hE.nlinks, by rw [hself]; exact z1,
    by rw [hself]; exact z2, by rw [hself]; exact z3, by have := hE.short; rw [freeCount_putInode]; omega,
    by have := hE.spent; rw [freeCount_putInode]; simpa using this⟩
  obtain ⟨t, e | e⟩ := hE.state
  · dsimp only at e ⊢
    subst e
    exact ⟨t, Or.inl rfl⟩
  · dsimp only at e ⊢
    subst e
    exact ⟨t, Or.inr rfl⟩

/-- `W` holds of the state and the arguments, if the step is a `do_write` through a descriptor for writing. -/
def Call.IfWrites (W : State → ℤ → Mem → ℤ → Prop) (y : Sys) : Call → Prop
  | .fs p stack (.write fd buff length) =>
    (y.load p stack).isOpen fd → (y.fdescArray fd.toNat).mode ≠ oRdonly → W (y.load p stack) fd buff length
  | _ => True

theorem Call.IfWrites.mono {W W' : State → ℤ → Mem → ℤ → Prop} {y : Sys} {c : Call} (h : c.IfWrites W y)
    (hW : ∀ p stack fd buff length, (y.load p stack).isOpen fd → (y.fdescArray fd.toNat).mode ≠ oRdonly →
      W (y.load p stack) fd buff length → W' (y.load p stack) fd buff length) : c.IfWrites W' y := by
  unfold Call.IfWrites at h ⊢
  split
  · exact fun ho hm => hW _ _ _ _ _ ho hm (h ho hm)
  · trivial

instance (W : State → ℤ → Mem → ℤ → Prop) [∀ s fd buff length, Decidable (W s fd buff length)] (y : Sys) :
    ∀ c, Decidable (Call.IfWrites W y c)
  | .fs _ _ (.mkdir _) => isTrue trivial
  | .fs _ _ (.touch _) => isTrue trivial
  | .fs _ _ (.ln _ _) => isTrue trivial
  | .fs _ _ (.rm _) => isTrue trivial
  | .fs _ _ (.rmdir _) => isTrue trivial
  | .fs _ _ (.cd _) => isTrue trivial
  | .fs _ _ (.open _ _) => isTrue trivial
  | .fs _ _ (.read _ _ _) => isTrue trivial
  | .fs _ _ (.write _ _ _) => inferInstanceAs (Decidable (_ → _ → W _ _ _ _))
  | .fs _ _ (.close _) => isTrue trivial
  | .fs _ _ (.lseek _ _ _) => isTrue trivial
  | .spawn .. => isTrue trivial

end RiscvKernel.Fs
