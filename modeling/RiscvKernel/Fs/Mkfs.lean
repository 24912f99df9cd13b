import RiscvKernel.Fs.Rmdir

/-!
# A new file system

`do_mkfs` on a disk without a superblock leaves a well-formed disk, whatever the disk held before:
one directory, the root, with its two dots.
-/

namespace RiscvKernel.Fs

open Lib Lib.Forest

/-! ## The maps -/

/-- The loop of `do_mkfs` over the sectors of the two maps. -/
theorem clearMaps {s : State} (hsb : s.sb = mkfsSb) (ht : ∀ i < 512, s.temp i = 0#8) :
    ∃ d, loop (fun i s => writeSector s (s.sb.startSector + s.sb.inodeMapOffset + i)) 0 33 s =
        s.put d s.temp ∧
      ∀ a, d a = if imapBase ≤ a ∧ a < itabBase then 0#8 else s.disk a := by
  have h := loop_inv (P := fun i r => ∃ d, r = s.put d s.temp ∧
      ∀ a, d a = if imapBase ≤ a ∧ a < imapBase + 512 * i then 0#8 else s.disk a)
    (f := fun i s => writeSector s (s.sb.startSector + s.sb.inodeMapOffset + i))
    (i := 0) (n := 33) (s := s) ?_ ?_
  · obtain ⟨d, e, hd⟩ := h
    refine ⟨d, e, fun a => ?_⟩
    rw [hd a]
    exact if_congr (by have := bases; omega) rfl rfl
  · rintro i _ - hi ⟨d, rfl, hd⟩
    refine ⟨blit d (imapBase + 512 * i) s.temp 0 512, ?_, fun a => ?_⟩
    · unfold writeSector State.put
      have : 512 * u32 (s.sb.startSector + s.sb.inodeMapOffset + i) = imapBase + 512 * i := by
        rw [hsb]
        show 512 * u32 (2 ^ 20 + 1 + i) = _
        rw [u32_of_lt (by omega)]
        unfold imapBase
        omega
      simp only [sectorSize, this]
    · by_cases ha : imapBase + 512 * i ≤ a ∧ a < imapBase + 512 * i + 512
      · rw [blit_in_of_le ha.1 ha.2, ht _ (by omega), if_pos (by omega)]
      · rw [blit_out (by omega), hd a]
        exact if_congr (by omega) rfl rfl
  · exact ⟨s.disk, rfl, fun a => by rw [if_neg (by omega)]⟩

/-! ## The root directory's inode -/

/-- The inode `do_mkfs` gives the root directory: that of a new directory in block 1. -/
def rootInode : Inode := newDirInode rootDirBlock

theorem word_fill {m : Mem} {a n k : ℕ} (h1 : a ≤ k) (h2 : k + 4 ≤ a + n) :
    word (fill m a 0#8 n) k = 0 := by
  have : word (fill m a 0#8 n) k = word (fun _ => 0#8) k :=
    word_congr fun i hi => fill_in (by omega) (by omega)
  rw [this]
  rfl

theorem decode_mkfsInode (t : Mem) : Inode.decode (mkfsInode t) 0 = rootInode := by
  have hw : ∀ k < 16, word (mkfsInode t) (4 * k) = rootInode.word k := by
    intro k hk
    unfold mkfsInode
    simp only
    by_cases h4 : k = 4
    · subst h4
      rw [word_putWord_self]
      rfl
    rw [word_putWord_of_disjoint (by omega)]
    by_cases h3 : k = 3
    · subst h3
      rw [word_putWord_self]
      rfl
    rw [word_putWord_of_disjoint (by omega)]
    by_cases h2 : k = 2
    · subst h2
      rw [word_putWord_self]
      rfl
    rw [word_putWord_of_disjoint (by omega)]
    by_cases h1 : k = 1
    · subst h1
      rw [word_putWord_self]
      rfl
    rw [word_putWord_of_disjoint (by omega), word_fill (by omega) (by simp only [sectorSize]; omega)]
    interval_cases k <;> first | rfl | omega
  apply Inode.ext
  · exact hw 0 (by omega)
  · exact hw 1 (by omega)
  · exact hw 2 (by omega)
  · exact hw 3 (by omega)
  · funext i
    show (if i < 10 then word (mkfsInode t) (0 + 4 * (4 + i)) else 0) = rootInode.direct i
    split_ifs with hi
    · rw [Nat.zero_add, hw (4 + i) (by omega)]
      unfold Inode.word
      rw [if_neg (by omega), if_neg (by omega), if_neg (by omega), if_neg (by omega),
        if_pos (by omega), Nat.add_sub_cancel_left]
    · exact (rootInode.direct_of_ge i (by omega)).symm
  · exact hw 14 (by omega)
  · exact hw 15 (by omega)

/-! ## The new disk -/

/-- What is on the disk after `do_mkfs`. -/
structure NewDisk (d : Mem) : Prop where
  sb : SbOn d
  imap : ∀ n, imap d n = decide (n = 0)
  bmap : ∀ b, bmap d b = decide (b < 2)
  root : inode d 0 = rootInode
  zero : block d 0 = fun _ => 0#8
  dots : ∃ t, ∀ i < 4096, block d 1 i = putDots (fill t 0 0#8 4096) 0 0 i

theorem bit_of_byte {d : Mem} {a : ℕ} {v : Byte} (h0 : d a = v)
    {n k : ℕ} (hz : ∀ i, 0 < i → i < n → d (a + i) = 0#8) (hk : k < 8 * n) :
    bit d a k = (decide (k < 8) && v.getLsbD k) := by
  unfold bit
  by_cases h8 : k < 8
  · rw [show k / 8 = 0 by omega, Nat.add_zero, h0, show k % 8 = k by omega, decide_eq_true h8,
      Bool.true_and]
  · rw [hz _ (by omega) (by omega), decide_eq_false h8, Bool.false_and, BitVec.getLsbD_zero]

/-- The writes of `do_mkfs`: the root's inode, the sentinel, the root's block and the first sectors of
the two maps. -/
theorem newDisk_of {d1 d2 z y u v : Mem} (hsb : SbOn d1)
    (hd2 : ∀ a, d2 a = if imapBase ≤ a ∧ a < itabBase then 0#8 else d1 a)
    (hz : ∀ i < 4096, z i = 0#8) (hy : ∃ t, ∀ i < 4096, y i = putDots (fill t 0 0#8 4096) 0 0 i)
    (hu0 : u 0 = 1#8) (hu : ∀ i, 0 < i → i < 512 → u i = 0#8)
    (hv0 : v 0 = 3#8) (hv : ∀ i, 0 < i → i < 512 → v i = 0#8) :
    NewDisk (blit (blit (putBlock (putBlock (putInode d2 0 rootInode) 0 z 0) 1 y 0) imapBase u 0 512)
      bmapBase v 0 512) := by
  have hb := bases
  generalize hd3 : putBlock (putBlock (putInode d2 0 rootInode) 0 z 0) 1 y 0 = d3
  -- below the inode table nothing was written but the maps
  have hlow : ∀ a < itabBase, d3 a = d2 a := fun a ha => by
    rw [← hd3]
    unfold putBlock putInode
    rw [blit_out (by omega), blit_out (by omega), blit_out (by omega)]
  have hhigh : ∀ a, itabBase ≤ a → blit (blit d3 imapBase u 0 512) bmapBase v 0 512 a = d3 a :=
    fun a ha => by rw [blit_out (by omega), blit_out (by omega)]
  refine ⟨fun i hi => ?_, fun n => ?_, fun b => ?_, ?_, ?_, ?_⟩
  · rw [blit_out (by omega), blit_out (by omega), hlow _ (by omega), hd2, if_neg (by omega)]
    exact hsb i hi
  · unfold imap
    by_cases hn : n < 4096
    · rw [bit_of_byte (v := 1#8) (n := 512) ?_ ?_ (by omega), decide_eq_true hn, Bool.true_and]
      · by_cases h8 : n < 8
        · interval_cases n <;> rfl
        · rw [decide_eq_false h8, decide_eq_false (by omega)]
          rfl
      · rw [blit_out (by omega), blit_in_of_le (by omega) (by omega), Nat.sub_self, hu0]
      · intro i h1 h2
        rw [blit_out (by omega), blit_in (by omega), Nat.zero_add, hu i h1 h2]
    · rw [decide_eq_false hn, decide_eq_false (by omega)]
      rfl
  · unfold bmap
    by_cases hn : b < 131072
    · rw [bit_of_byte (v := 3#8) (n := 16384) ?_ ?_ (by omega), decide_eq_true hn, Bool.true_and]
      · by_cases h8 : b < 8
        · interval_cases b <;> rfl
        · rw [decide_eq_false h8, decide_eq_false (by omega)]
          rfl
      · rw [blit_in_of_le (by omega) (by omega), Nat.sub_self, hv0]
      · intro i h1 h2
        by_cases h3 : i < 512
        · rw [blit_in h3, Nat.zero_add, hv i h1 h3]
        · rw [blit_out (by omega), blit_out (by omega), hlow _ (by omega), hd2, if_pos (by omega)]
    · rw [decide_eq_false hn, decide_eq_false (by omega)]
      rfl
  · rw [inode_congr (d := d3) fun _ i _ => hhigh _ (by omega), ← hd3, inode_putBlock,
      inode_putBlock, inode_putInode_self _ _ (by omega)]
  · rw [block_congr (d := d3) fun i _ => hhigh _ (by omega), ← hd3,
      block_putBlock_of_ne _ _ _ (by omega)]
    funext i
    by_cases hi : i < 4096
    · rw [block_putBlock_self _ _ _ _ hi, Nat.zero_add, hz i hi]
    · unfold block
      rw [if_neg hi]
  · obtain ⟨t, ht⟩ := hy
    refine ⟨t, fun i hi => ?_⟩
    rw [block_congr (d := d3) fun i _ => hhigh _ (by omega), ← hd3,
      block_putBlock_self _ _ _ _ hi, Nat.zero_add, ht i hi]

/-- `do_mkfs` on a disk without a superblock. -/
theorem doMkfs_spec {s : State} (h : (doMkfs s).1 = 0) :
    ∃ d t, doMkfs s = (0, { s with sb := mkfsSb, sbValid := true }.put d t) ∧ NewDisk d := by
  have hb := bases
  unfold doMkfs at h ⊢
  by_cases hm : (readSb s).sb.magic = superblockMagic
  · simp only [hm, if_true] at h
    cases h
  simp only [hm, if_false]
  -- the superblock
  have hsb1 : SbOn (blit s.disk sbBase (blit (readSb s).temp 0 mkfsSb.encode 0 80) 0 512) := by
    intro i hi
    rw [blit_in (by omega), blit_in (by omega), Nat.zero_add]
  have e1 : { writeSb { readSb s with sb := mkfsSb } with sbValid := true } =
      { s with sb := mkfsSb, sbValid := true }.put
        (blit s.disk sbBase (blit (readSb s).temp 0 mkfsSb.encode 0 80) 0 512)
        (blit (readSb s).temp 0 mkfsSb.encode 0 80) := rfl
  have e1t : (writeSb { readSb s with sb := mkfsSb }).temp =
      blit (readSb s).temp 0 mkfsSb.encode 0 80 := rfl
  rw [e1]
  generalize hS : { s with sb := mkfsSb, sbValid := true } = S at *
  have hSsb : S.sb = mkfsSb := by rw [← hS]
  generalize blit s.disk sbBase (blit (readSb s).temp 0 mkfsSb.encode 0 80) 0 512 = d1 at *
  generalize blit (readSb s).temp 0 mkfsSb.encode 0 80 = t1 at *
  -- the maps are cleared
  have e33 : inodeMapSectors + blockMapSectors = 33 := by
    simp only [inodeMapSectors, blockMapSectors, numInodes, sectorSize, fsBlockNum, fsSize,
      blockSize]
    norm_num
  obtain ⟨d2, e2, hd2⟩ := clearMaps (s := S.put d1 (fill t1 0 0#8 512)) hSsb
    (fun i hi => fill_in (Nat.zero_le _) (by omega))
  simp only [State.put_put, State.put_temp, State.put_disk] at e2 hd2
  -- the root directory and the sentinel
  simp only [State.setTemp_eq, State.put_temp, State.put_disk, State.put_put, sectorSize, e33, e1t, e2,
    decode_mkfsInode, writeInode_eq _ (show rootInodeNum < 4096 by decide), blockSize,
    writeBlock_eq _ (show 0 < 131072 by decide),
    writeBlock_eq _ (show rootDirBlock < 131072 by decide)]
  have ha1 : ∀ d t, writeSector (S.put d t)
      ((S.put d t).sb.startSector + (S.put d t).sb.inodeMapOffset) =
      S.put (blit d imapBase t 0 512) t := fun d t => by
    rw [State.put_sb, hSsb]
    rfl
  have ha2 : ∀ d t, writeSector (S.put d t)
      ((S.put d t).sb.startSector + (S.put d t).sb.blockMapOffset) =
      S.put (blit d bmapBase t 0 512) t := fun d t => by
    rw [State.put_sb, hSsb]
    rfl
  simp only [ha1, ha2, State.put_temp, State.put_disk, State.put_put]
  refine ⟨_, _, rfl, newDisk_of hsb1 hd2 (fun i hi => fill_in (by omega) (by omega)) ⟨_, fun i hi =>
    rfl⟩ (Function.update_self ..) (fun i h1 h2 => ?_) (Function.update_self ..) (fun i h1 h2 => ?_)⟩
  · rw [Function.update_of_ne (by omega), fill_in (by omega) (by omega)]
  · rw [Function.update_of_ne (by omega), Function.update_of_ne (by omega),
      fill_in (by omega) (by omega)]

/-! ## It is well-formed -/

section NewDisk

variable {d : Mem} (h : NewDisk d)

include h

theorem NewDisk.ref {r : ℕ × ℕ} {ks : List ℕ} (hs : Shape d r ks) :
    Forest.ref (cells d) r ks = if r = (0, 0) then 1 else 0 := by
  obtain ⟨m, i⟩ := r
  obtain ⟨h1, h2, h3, -⟩ := hs
  rw [h.imap, decide_eq_true_iff] at h1
  simp only at h1 h2 h3
  subst h1
  have hp : (Fs.inode d 0).ptr i = if i = 0 then 1 else 0 := by
    rw [h.root]
    exact ptr_newDirInode (by norm_num) i
  by_cases hi : i = 0
  · subst hi
    obtain rfl : ks = [] := List.length_eq_zero_iff.mp (by omega)
    exact hp.trans (by simp)
  · rw [if_neg (by simp [hi])]
    rw [if_neg hi] at hp
    clear h3
    induction ks with
    | nil => exact hp
    | cons k ks ih => exact ref_cons_of_eq ih

theorem NewDisk.blkInv : BlkInv d where
  owned :=
    { used_iff := fun b => by
        rw [h.bmap, decide_eq_true_iff]
        constructor
        · intro hb
          by_cases h0 : b = 0
          · exact Or.inl h0
          · have hs : Shape d (0, 0) [] := ⟨by rw [h.imap]; rfl, by simp, by simp, by simp⟩
            exact Or.inr ⟨(0, 0), [], hs, by rw [h.ref hs, if_pos rfl]; omega⟩
        · rintro (rfl | ⟨r, ks, hs, rfl⟩)
          · omega
          · rw [h.ref hs]
            split_ifs <;> omega
      inj := fun {r ks r' ks'} hs hs' e hne => by
        -- only the first pointer of the root is not null
        have hr : ∀ {r ks}, Shape d r ks → Forest.ref (cells d) r ks ≠ 0 → r = (0, 0) ∧ ks = [] := by
          intro r ks hs hne
          rw [h.ref hs] at hne
          have h1 : r = (0, 0) := by
            by_contra h1
            exact hne (if_neg h1)
          subst h1
          exact ⟨rfl, List.length_eq_zero_iff.mp (by have := hs.2.2.1; simpa using this)⟩
        obtain ⟨rfl, rfl⟩ := hr hs hne
        obtain ⟨rfl, rfl⟩ := hr hs' (e ▸ hne)
        exact ⟨rfl, rfl⟩ }
  zero := h.zero

theorem NewDisk.root_live : Fs.imap d 0 = true ∧ isDir d 0 ∧ dirBlocks d 0 = 1 ∧ pblk d 0 0 = 1 := by
  refine ⟨by rw [h.imap]; rfl, by unfold isDir; rw [h.root]; rfl, ?_, ?_⟩
  · unfold dirBlocks
    rw [h.root, rootInode, size_newDirInode]
  · rw [pblk_direct _ _ (by omega), h.root, rootInode, ptr_newDirInode (by norm_num)]
    rfl

/-- The only entries are the two dots of the root. -/
theorem NewDisk.ent (τ : Slot) : Fs.ent d τ = if τ = (0, 0, 1) then some (dotdot, 0)
    else if τ = (0, 0, 0) then some (dot, 0) else none := by
  obtain ⟨h1, h2, h3, h4⟩ := h.root_live
  obtain ⟨t, ht⟩ := h.dots
  obtain ⟨q, l, j⟩ := τ
  by_cases hq : q = 0
  · subst hq
    rw [ent_dots h1 h2 h3 (show 0 < 4096 by omega) (t := t) fun i hi => by unfold fileBlock; rw [h4, ht i hi]]
    simp only [Prod.mk.injEq, true_and]
  · rw [ent_of_unmarked (by rw [h.imap, decide_eq_false hq]), if_neg (by simp [hq]),
      if_neg (by simp [hq])]

theorem NewDisk.tree : (nameTree d).Inv naming := by
  obtain ⟨h1, h2, h3, h4⟩ := h.root_live
  have hE : ∀ {τ e}, (nameTree d).ent τ = some e ↔
      (τ = (0, 0, 1) ∧ e = (dotdot, 0)) ∨ (τ = (0, 0, 0) ∧ e = (dot, 0)) := by
    intro τ e
    show Fs.ent d τ = some e ↔ _
    rw [h.ent]
    split_ifs with c1 c2
    · simp [c1, eq_comm]
    · simp [c2, eq_comm]
    · simp [c1, c2]
  have hnP : ∀ τ n, ¬ (nameTree d).Proper naming τ n := by
    rintro τ n ⟨x, e, hx1, hx2⟩
    rcases hE.mp e with ⟨-, e⟩ | ⟨-, e⟩
    · cases e
      exact hx2 rfl
    · cases e
      exact hx1 rfl
  have hroot : ∀ {n}, (nameTree d).live n → n = 0 := by
    intro n hn
    change Fs.imap d n = true at hn
    rwa [h.imap, decide_eq_true_iff] at hn
  refine
    { root_live := h1
      root_dir := h2
      owner_dir := fun {τ e} he => ?_
      target_live := fun {τ x n} he => ?_
      distinct := fun {τ τ' x n n'} he he' _ => ?_
      finite := ?_
      file_links := fun {n} hn hd => ?_
      dir_links := fun {n} hn _ => ?_
      dot_entry := fun {n} hn _ => ?_
      dotdot_entry := fun hp => absurd hp (hnP _ _)
      dotdot_root := ⟨(0, 0, 1), rfl, hE.mpr (Or.inl ⟨rfl, rfl⟩)⟩
      held_once := fun hp => absurd hp (hnP _ _)
      root_free := hnP _ _
      reach := fun {n} hn => hroot hn ▸ NameTree.Reach.root }
  · rcases hE.mp he with ⟨rfl, -⟩ | ⟨rfl, -⟩
    · exact ⟨h1, h2⟩
    · exact ⟨h1, h2⟩
  · rcases hE.mp he with ⟨-, e⟩ | ⟨-, e⟩
    · cases e
      exact h1
    · cases e
      exact h1
  · rcases hE.mp he with ⟨rfl, e⟩ | ⟨rfl, e⟩ <;> rcases hE.mp he' with ⟨rfl, e'⟩ | ⟨rfl, e'⟩
    · rfl
    · cases e
      cases e'
    · cases e
      cases e'
    · rfl
  · refine (Set.toFinite {((0, 0, 0) : Slot), (0, 0, 1)}).subset fun τ hτ => ?_
    obtain ⟨e, he⟩ := Option.ne_none_iff_exists'.mp hτ
    rcases hE.mp he with ⟨rfl, -⟩ | ⟨rfl, -⟩
    · simp
    · simp
  · exact absurd (hroot hn ▸ h2) hd
  · have hsub : (nameTree d).subdirs naming n = ∅ := by
      ext τ
      simp only [NameTree.subdirs, Set.mem_ofPred_eq, Set.mem_empty_iff_false, iff_false]
      rintro ⟨-, m, hp, -⟩
      exact hnP _ _ hp
    rw [hsub, Set.ncard_empty, hroot hn]
    show (Fs.inode d 0).nlinks = 2
    rw [h.root]
    rfl
  · rw [hroot hn]
    exact ⟨(0, 0, 0), rfl, hE.mpr (Or.inr ⟨rfl, rfl⟩)⟩

/-- A new file system is well-formed. -/
theorem NewDisk.wf : Wf d := by
  obtain ⟨h1, h2, h3, h4⟩ := h.root_live
  refine ⟨h.sb, h.blkInv, fun p hp _ => ?_, fun n hn hd => ?_, h.tree⟩
  · rw [h.imap, decide_eq_true_iff] at hp
    subst hp
    refine ⟨by rw [h3, h.root, rootInode, size_newDirInode], by omega, fun l hl => ?_,
      fun τ x n _ e => ?_⟩
    · obtain rfl : l = 0 := by omega
      rw [h4]
      exact one_ne_zero
    · rw [h.ent] at e
      split_ifs at e
      · cases e
        decide
      · cases e
        decide
  · rw [h.imap, decide_eq_true_iff] at hn
    subst hn
    exact absurd h2 hd

end NewDisk

end RiscvKernel.Fs
