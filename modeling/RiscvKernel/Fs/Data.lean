import RiscvKernel.Fs.Ops
import RiscvKernel.Fs.Dir

/-!
# Reading and writing files

The copy loops of `do_read` and `do_write` on the bytes of an inode. A read delivers `fileByte`s; a
write stores its buffer, keeps every other byte whose block was there already, and changes nothing
outside of the inode. A block that is allocated by a write is not cleared: the rest of it reads as
whatever the disk held there.
-/

namespace RiscvKernel.Fs

open Lib Lib.Forest

/-! ## One round -/

theorem chunk_le (pos remain : ℕ) : chunk pos remain ≤ remain := by
  unfold chunk
  simp only [blockSize]
  split_ifs <;> omega

theorem chunk_pos (pos : ℕ) {remain : ℕ} (h : 0 < remain) : 0 < chunk pos remain := by
  unfold chunk
  simp only [blockSize]
  split_ifs <;> omega

theorem chunk_block (pos remain : ℕ) : pos % 4096 + chunk pos remain ≤ 4096 := by
  unfold chunk
  simp only [blockSize]
  split_ifs <;> omega

/-- Every position is addressable. -/
theorem div_lt_maxBlocks {pos : ℕ} (h : pos < 2 ^ 32) : pos / 4096 < maxBlocks := by
  unfold maxBlocks
  omega

/-- The bytes of inode `n` from `pos` to `pos + k` are those of `buff` at `a`, and the other bytes
that were in place are unchanged. -/
structure Stored (n pos k : ℕ) (buff : Mem) (a : ℕ) (d d' : Mem) : Prop where
  only : Only n d d'
  stored : ∀ o, pos ≤ o → o < pos + k →
    pblk d' n (o / 4096) ≠ 0 ∧ fileByte d' n o = buff (a + (o - pos))
  kept : ∀ o, (o < pos ∨ pos + k ≤ o) → pblk d n (o / 4096) ≠ 0 →
    pblk d' n (o / 4096) ≠ 0 ∧ fileByte d' n o = fileByte d n o

theorem Stored.refl {d : Mem} (h : BlkInv d) (n pos : ℕ) (buff : Mem) (a : ℕ) :
    Stored n pos 0 buff a d d :=
  ⟨Only.refl h, fun o h1 h2 => by omega, fun _ _ h0 => ⟨h0, rfl⟩⟩

theorem Stored.append {n pos k k' : ℕ} {buff : Mem} {a : ℕ} {d d' d'' : Mem}
    (h : Stored n pos k buff a d d') (h' : Stored n (pos + k) k' buff (a + k) d' d'') :
    Stored n pos (k + k') buff a d d'' where
  only := h.only.trans h'.only
  stored o h1 h2 := by
    by_cases ho : o < pos + k
    · obtain ⟨e1, e2⟩ := h.stored o h1 ho
      obtain ⟨e3, e4⟩ := h'.kept o (Or.inl ho) e1
      exact ⟨e3, e4.trans e2⟩
    · obtain ⟨e1, e2⟩ := h'.stored o (by omega) (by omega)
      refine ⟨e1, e2.trans ?_⟩
      congr 1
      omega
  kept o ho h0 := by
    obtain ⟨e1, e2⟩ := h.kept o (by omega) h0
    obtain ⟨e3, e4⟩ := h'.kept o (by omega) e1
    exact ⟨e3, e4.trans e2⟩

/-- Writing back the inode afterwards. -/
theorem Stored.putMeta {n pos k : ℕ} {buff : Mem} {a : ℕ} {d d' : Mem}
    (h : Stored n pos k buff a d d') (hn : imap d n = true) {x : Inode}
    (hx : x.ptr = (inode d' n).ptr) : Stored n pos k buff a d (putInode d' n x) := by
  have hn' : imap d' n = true := by rwa [h.only.imap]
  have e : ∀ o, pblk (putInode d' n x) n (o / 4096) = pblk d' n (o / 4096) := fun o =>
    pblk_putMeta hn' hx hn' _
  have e' : ∀ o, fileByte (putInode d' n x) n o = fileByte d' n o := fun o => by
    unfold fileByte
    rw [fileBlock_putMeta hn' hx hn']
  exact ⟨h.only.trans (only_putMeta h.only.inv hn' hx), fun o h1 h2 => by
    rw [e, e']; exact h.stored o h1 h2, fun o ho h0 => by rw [e, e']; exact h.kept o ho h0⟩

/-- One round of the write loop on the disk: a growth, then a block with new bytes in it. -/
theorem stored_round {d d' t : Mem} (buff : Mem) (h : BlkInv d) {n pos k a : ℕ} (hn : imap d n = true)
    (hk : pos % 4096 + k ≤ 4096) (hg : Grow n (pos / 4096) d d') (hb : pblk d' n (pos / 4096) ≠ 0)
    (ht : ∀ i < 4096, t i = fileBlock d' n (pos / 4096) i) :
    Stored n pos k buff a d
      (putBlock d' (pblk d' n (pos / 4096)) (blit t (pos % 4096) buff a k) 0) := by
  have hn' : imap d' n = true := by rwa [hg.imap]
  have hp := fun l => pblk_putData hg.inv hn' hb (blit t (pos % 4096) buff a k) 0 hn' l
  have hself : ∀ i < 4096, fileBlock (putBlock d' (pblk d' n (pos / 4096))
      (blit t (pos % 4096) buff a k) 0) n (pos / 4096) i = blit t (pos % 4096) buff a k i := by
    intro i hi
    rw [fileBlock_putData_self hg.inv hn' hb _ 0 hi, Nat.zero_add]
  refine ⟨(hg.only h).trans (only_putData hg.inv hn' hb _ 0), fun o h1 h2 => ?_, fun o ho h0 => ?_⟩
  · have e1 : o / 4096 = pos / 4096 := by omega
    have e2 : o % 4096 = pos % 4096 + (o - pos) := by omega
    refine ⟨by rw [hp, e1]; exact hb, ?_⟩
    unfold fileByte
    rw [e1, hself _ (by omega), e2, blit_in (by omega)]
  · refine ⟨by rw [hp, hg.pblk_eq hn h0]; exact h0, ?_⟩
    unfold fileByte
    by_cases e : o / 4096 = pos / 4096
    · rw [e] at h0 ⊢
      rw [hself _ (by omega), blit_out (by omega), ht _ (by omega),
        hg.fileBlock_eq h hn (Or.inr h0)]
    · rw [fileBlock_putData hg.inv hn' hb _ 0 hn' (by omega),
        hg.fileBlock_eq h hn (Or.inr h0)]

theorem readBlock_fileBlock {s : State} (h : BlkInv s.disk) {n : ℕ} (hn : imap s.disk n = true)
    (l : ℕ) : ∃ t, readBlock s (pblk s.disk n l) 0 = s.put s.disk t ∧
      ∀ i < 4096, t i = fileBlock s.disk n l i := by
  refine ⟨_, rfl, fun i hi => ?_⟩
  have := readBlock_temp s (h.pblk_lt hn l) (o := 0) hi
  rwa [Nat.zero_add] at this

/-! ## The loops -/

/-- The loop of `do_read` delivers the bytes of the inode. -/
theorem readLoop_spec (n len : ℕ) (node : Inode) :
    ∀ (fuel total pos : ℕ) (buff : Mem) (s : State), BlkInv s.disk → imap s.disk n = true →
      node.ptr = (inode s.disk n).ptr → total ≤ len → len - total ≤ fuel →
      pos + (len - total) < 2 ^ 32 →
      ∃ t buff', readLoop n len fuel total pos node buff s =
          (len, pos + (len - total), buff', s.put s.disk t) ∧
        ∀ i, buff' i =
          if total ≤ i ∧ i < len then fileByte s.disk n (pos + (i - total)) else buff i := by
  intro fuel
  induction fuel with
  | zero =>
    intro total pos buff s _ _ _ h1 h2 _
    obtain rfl : total = len := by omega
    refine ⟨s.temp, buff, ?_, fun i => by rw [if_neg (by omega)]⟩
    rw [readLoop, Nat.sub_self, Nat.add_zero]
    rfl
  | succ fuel ih =>
    intro total pos buff s h hn hptr h1 h2 h3
    by_cases hlt : total < len
    · obtain ⟨t, e⟩ := getPhysicalBlockId_false
        (h.pathOk hn (div_lt_maxBlocks (show pos < _ by omega))) hptr (div_lt_maxBlocks (by omega))
      obtain ⟨t', e', ht'⟩ := readBlock_fileBlock (s := s.put s.disk t) h hn (pos / 4096)
      simp only [State.put_disk, State.put_put] at e' ht'
      have hk1 := chunk_le pos (len - total)
      have hk2 := chunk_pos pos (show 0 < len - total by omega)
      have hk3 := chunk_block pos (len - total)
      rw [readLoop, if_pos hlt]
      simp only [blockSize, e, ne_neg1 (h.pblk_lt hn _), if_false, e', State.put_temp]
      generalize hkk : chunk pos (len - total) = k at *
      rw [u32_of_lt (by omega)]
      obtain ⟨t2, buff', e2, hb⟩ := ih (total + k) (pos + k)
        (blit buff total t' (pos % 4096) k) (s.put s.disk t') h hn hptr (by omega) (by omega)
        (by omega)
      refine ⟨t2, buff', ?_, fun i => ?_⟩
      · rw [e2, show pos + k + (len - (total + k)) = pos + (len - total) by omega]
        rfl
      · rw [hb i]
        simp only [State.put_disk]
        by_cases hi : total + k ≤ i ∧ i < len
        · rw [if_pos hi, if_pos ⟨by omega, hi.2⟩]
          congr 1
          omega
        · rw [if_neg hi]
          by_cases hi' : total ≤ i ∧ i < len
          · rw [if_pos hi', blit_in_of_le hi'.1 (by omega), ht' _ (by omega)]
            unfold fileByte
            rw [show (pos + (i - total)) / 4096 = pos / 4096 by omega,
              show (pos + (i - total)) % 4096 = pos % 4096 + (i - total) by omega]
          · rw [if_neg hi', blit_out (by omega)]
    · obtain rfl : total = len := by omega
      refine ⟨s.temp, buff, ?_, fun i => by rw [if_neg (by omega)]⟩
      rw [readLoop, if_neg hlt, Nat.sub_self, Nat.add_zero]
      rfl

theorem writeLoop_failed {n len : ℕ} {buff : Mem} {fuel total pos : ℕ} {node : Inode} {s : State}
    (h : (writeLoop n len buff fuel total pos node s).2.2.2.allocFailed = false) :
    s.allocFailed = false := by
  induction fuel generalizing total pos node s with
  | zero => exact h
  | succ fuel ih =>
    rw [writeLoop] at h
    split at h
    · dsimp only at h
      split at h
      · exact getPhysicalBlockId_failed h
      · have := ih h
        rw [writeBlock_allocFailed, State.setTemp_eq, State.put_allocFailed,
          readBlock_allocFailed] at this
        exact getPhysicalBlockId_failed this
    · exact h

/-- The loop of `do_write` stores the bytes of the buffer. -/
theorem writeLoop_spec (n len : ℕ) (buff : Mem) :
    ∀ (fuel total pos : ℕ) (node : Inode) (s : State), SbOk s → BlkInv s.disk →
      imap s.disk n = true → node.ptr = (inode s.disk n).ptr → total ≤ len → len - total ≤ fuel →
      pos + (len - total) < 2 ^ 31 →
      (writeLoop n len buff fuel total pos node s).2.2.2.allocFailed = false →
      ∃ d t node', writeLoop n len buff fuel total pos node s =
          (len, pos + (len - total), node', s.put d t) ∧
        Stored n pos (len - total) buff total s.disk d ∧ node'.ptr = (inode d n).ptr ∧
        node'.mode = node.mode ∧ node'.type = node.type ∧ node'.nlinks = node.nlinks ∧
        node'.size = if total < len then max node.size (pos + (len - total)) else node.size := by
  intro fuel
  induction fuel with
  | zero =>
    intro total pos node s _ h _ hptr h1 h2 _ _
    obtain rfl : total = len := by omega
    refine ⟨s.disk, s.temp, node, ?_, ?_, hptr, rfl, rfl, rfl, by rw [if_neg (lt_irrefl _)]⟩
    · rw [writeLoop, Nat.sub_self, Nat.add_zero]
      rfl
    · rw [Nat.sub_self]
      exact Stored.refl h _ _ _ _
  | succ fuel ih =>
    intro total pos node s hs h hn hptr h1 h2 h3 hf
    by_cases hlt : total < len
    · have hk1 := chunk_le pos (len - total)
      have hk2 := chunk_pos pos (show 0 < len - total by omega)
      have hk3 := chunk_block pos (len - total)
      rw [writeLoop, if_pos hlt] at hf ⊢
      simp only [blockSize] at hf ⊢
      have hf1 : (getPhysicalBlockId s node n (pos / 4096) true).2.2.allocFailed = false := by
        split at hf
        · exact hf
        · have := writeLoop_failed hf
          rwa [writeBlock_allocFailed, State.setTemp_eq, State.put_allocFailed,
            readBlock_allocFailed] at this
      obtain ⟨d, t, node1, e, hg, hb, hno, -⟩ := getPhysicalBlockId_grow hs h hn hptr
        (div_lt_maxBlocks (show pos < _ by omega)) hf1
      have hn1 : imap d n = true := by rwa [hg.imap]
      obtain ⟨t', e', ht'⟩ := readBlock_fileBlock (s := s.put d t) hg.inv hn1 (pos / 4096)
      simp only [State.put_disk, State.put_put] at e' ht'
      have hlt' := hg.inv.pblk_lt hn1 (pos / 4096)
      simp only [e, ne_neg1 hlt', if_false, e', State.put_temp, State.setTemp_eq, State.put_disk,
        State.put_put, writeBlock_eq _ hlt'] at hf ⊢
      generalize hkk : chunk pos (len - total) = k at *
      rw [u32_of_lt (show pos + k < 2 ^ 32 by omega)] at hf ⊢
      have hst := stored_round buff (a := total) h hn hk3 hg hb ht'
      generalize hd2 : putBlock d (pblk d n (pos / 4096)) (blit t' (pos % 4096) buff total k) 0 = d2
        at *
      have hi2 : inode d2 n = inode d n := by rw [← hd2, inode_putBlock]
      generalize hx : (if pos + k > node1.size then node1.setSize (pos + k) else node1) = node2
        at *
      have hx1 : node2.ptr = node1.ptr ∧ node2.mode = node1.mode ∧ node2.type = node1.type ∧
          node2.nlinks = node1.nlinks ∧ node2.size = max node1.size (pos + k) := by
        rw [← hx]
        split_ifs with hgt
        · exact ⟨rfl, rfl, rfl, rfl, by rw [Inode.size_setSize, u32_of_lt (by omega)]; omega⟩
        · exact ⟨rfl, rfl, rfl, rfl, by omega⟩
      obtain ⟨x1, x2, x3, x4, x5⟩ := hx1
      obtain ⟨d3, t3, node3, e3, hst3, y1, y2, y3, y4, y5⟩ := ih (total + k) (pos + k) node2
        (s.put d2 (blit t' (pos % 4096) buff total k)) (hs.put (hst.only.sb hs.on) _) hst.only.inv
        (by rw [State.put_disk, hst.only.imap]; exact hn)
        (by rw [State.put_disk, hi2, x1, hno.ptr]) (by omega) (by omega) (by omega) hf
      have hm := hno.sameMeta
      refine ⟨d3, t3, node3, ?_, ?_, y1, ?_, ?_, ?_, ?_⟩
      · rw [e3, show pos + k + (len - (total + k)) = pos + (len - total) by omega]
        rfl
      · have := hst.append hst3
        rwa [show k + (len - (total + k)) = len - total by omega] at this
      · rw [y2, x2, hm.mode]
      · rw [y3, x3, hm.type]
      · rw [y4, x4, hm.nlinks]
      · rw [y5, x5, hm.size, if_pos hlt]
        split_ifs
        · omega
        · omega
    · obtain rfl : total = len := by omega
      refine ⟨s.disk, s.temp, node, ?_, ?_, hptr, rfl, rfl, rfl, by rw [if_neg hlt]⟩
      · rw [writeLoop, if_neg hlt, Nat.sub_self, Nat.add_zero]
        rfl
      · rw [Nat.sub_self]
        exact Stored.refl h _ _ _ _

end RiscvKernel.Fs
