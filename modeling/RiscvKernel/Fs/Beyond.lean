import RiscvKernel.Fs.Search

/-!
# Beyond the tables

The calls go on with the number -1 when an allocation has failed. As an inode number it stands for
64 bytes far behind the file system (`farInode`); what is written there does not touch the file
system (`Agree`). As a block number it stands for the last 64 inodes of the inode table
(`writeBlock_neg1`). The growth of an inode writes nothing behind the file system (`Confined`).
-/

namespace RiscvKernel.Fs

open Lib Lib.Forest

/-! ## Inode -1 -/

/-- Where the last block ends. -/
def fsEnd : ℕ := blkBase + 4096 * 131072

/-- Where inode -1 is, in the 32-bit arithmetic of `get_inode` and `write_inode`. -/
def farBase : ℕ := 512 * 537919521 + 448

/-- The inode that `get_inode` gives for -1. -/
def farInode (d : Mem) : Inode := Inode.decode (sdSector d 537919521) 448

theorem farBase_ge : fsEnd ≤ farBase := by
  unfold fsEnd farBase blkBase
  norm_num

theorem getInode_neg1 (s : State) : getInode s neg1 = farInode s.disk := rfl

theorem writeInode_neg1 (s : State) (x : Inode) :
    writeInode s neg1 x = s.put (blit s.disk farBase x.encode 0 64) s.temp := by
  have e1 : inodeSector neg1 = 537919521 := rfl
  have e2 : inodeOffset neg1 = 448 := rfl
  unfold writeInode farBase
  simp only [e1, e2, sectorSize, inodeSize]
  rw [blit_blit_blit _ _ _ (by norm_num)]
  rfl

theorem sdSector_far (d : Mem) (i : ℕ) : sdSector d 537919521 (448 + i) = d (farBase + i) := by
  unfold sdSector farBase
  rw [Nat.add_assoc]

theorem farInode_congr {d d' : Mem} (h : ∀ a, fsEnd ≤ a → d' a = d a) : farInode d' = farInode d :=
  Inode.decode_congr fun i _ => by
    rw [sdSector_far, sdSector_far]
    exact h _ (Nat.le_add_right_of_le farBase_ge)

theorem farInode_write (d : Mem) (x : Inode) : farInode (blit d farBase x.encode 0 64) = x :=
  Inode.decode_encode fun i hi => by
    rw [sdSector_far, blit_in hi, Nat.zero_add]

/-! ## Disks with the same file system -/

/-- The two disks have the same maps, inodes and blocks. -/
structure Agree (d d' : Mem) : Prop where
  imap : ∀ m, imap d' m = imap d m
  bmap : ∀ b, bmap d' b = bmap d b
  inode : ∀ m, inode d' m = inode d m
  block : ∀ b < 131072, block d' b = block d b
  sb : SbOn d → SbOn d'

section Agree

variable {d d' : Mem} (h : Agree d d')

/-- A change behind the file system. -/
theorem agree_of_far {d d' : Mem} (h : ∀ a < fsEnd, d' a = d a) : Agree d d' where
  imap _ := imap_congr fun _ => h _ (by unfold fsEnd; have := bases; omega)
  bmap _ := bmap_congr fun _ => h _ (by unfold fsEnd; have := bases; omega)
  inode _ := inode_congr fun _ _ _ => h _ (by unfold fsEnd; have := bases; omega)
  block _ _ := block_congr fun _ _ => h _ (by unfold fsEnd; omega)
  sb hs i hi := (h _ (by unfold fsEnd; have := bases; omega)).trans (hs i hi)

theorem agree_writeFar (d : Mem) (x : Inode) : Agree d (blit d farBase x.encode 0 64) :=
  agree_of_far fun _ ha => blit_out (Or.inl (by have := farBase_ge; omega))

include h

theorem Agree.freeCount : freeCount d' = freeCount d := freeCount_congr h.bmap

variable (hb : BlkInv d)

include hb

theorem Agree.ref_eq (r : ℕ × ℕ) (ks : List ℕ) (hp : Shape d r ks) :
    ref (cells d') r ks = ref (cells d) r ks := by
  refine ref_congr (shape_closed d) (fun _ => ?_) (fun k ks hp _ => ?_) ks hp
  · show (Fs.inode d' r.1).ptr _ = (Fs.inode d r.1).ptr _
    rw [h.inode]
  · exact idx_congr (h.block _ (hb.ref_lt (shape_closed _ _ _ _ hp))) k

theorem Agree.inv : BlkInv d' := by
  refine ⟨hb.owned.congr_shape (fun c => by rw [h.bmap]) (fun r ks hp => ?_) (h.ref_eq hb)
    (fun r ks hp => Or.inl ?_), (h.block 0 (by norm_num)).trans hb.zero⟩
  · rwa [shape_congr h.imap]
  · rwa [shape_congr h.imap] at hp

theorem Agree.pblk {m : ℕ} (hm : Fs.imap d m = true) (l : ℕ) : pblk d' m l = pblk d m l := by
  by_cases hl : l < maxBlocks
  · exact h.ref_eq hb _ _ (blockPath_shape hm hl)
  · rw [pblk_of_ge _ _ (by omega), pblk_of_ge _ _ (by omega)]

theorem Agree.fileBlock {m : ℕ} (hm : Fs.imap d m = true) (l : ℕ) :
    fileBlock d' m l = fileBlock d m l := by
  unfold Fs.fileBlock
  rw [h.pblk hb hm, h.block _ (hb.pblk_lt hm l)]

end Agree

/-! ## Growth stays inside -/

/-- The superblock is in place, and nothing has changed behind the file system. -/
structure Confined (s s' : State) : Prop where
  ok : SbOk s'
  far : ∀ a, fsEnd ≤ a → s'.disk a = s.disk a

section Confined

variable {s s' : State}

theorem Confined.refl (hs : SbOk s) : Confined s s := ⟨hs, fun _ _ => rfl⟩

theorem Confined.put (h : Confined s s') {d : Mem} (hd : SbOn d)
    (hf : ∀ a, fsEnd ≤ a → d a = s'.disk a) (t : Mem) : Confined s (s'.put d t) :=
  ⟨h.ok.put hd t, fun a ha => (hf a ha).trans (h.far a ha)⟩

theorem Confined.setTemp (h : Confined s s') (t : Mem) : Confined s (s'.setTemp t) :=
  h.put h.ok.on (fun _ _ => rfl) t

theorem Confined.readBlock (h : Confined s s') (b o : ℕ) : Confined s (readBlock s' b o) :=
  h.put h.ok.on (fun _ _ => rfl) _

theorem Confined.writeBlock (h : Confined s s') {b : ℕ} (hb : b < 131072) (o : ℕ) :
    Confined s (writeBlock s' b o) := by
  rw [writeBlock_eq _ hb]
  exact h.put (h.ok.on.putBlock _ _ _)
    (fun a ha => blit_out (Or.inr (by unfold fsEnd at ha; omega))) _

theorem Confined.writeInode (h : Confined s s') {n : ℕ} (hn : n < 4096) (x : Inode) :
    Confined s (writeInode s' n x) := by
  rw [writeInode_eq _ hn]
  exact h.put (h.ok.on.putInode _ _)
    (fun a ha => blit_out (Or.inr (by unfold fsEnd at ha; have := bases; omega))) _

theorem Confined.allocBlock (h : Confined s s') : Confined s (allocBlock s').2 ∧
    ((Fs.allocBlock s').1 = neg1 ∨ (Fs.allocBlock s').1 < 131072) := by
  rcases allocBlock_spec h.ok with ⟨b, hb, -, e⟩ | ⟨-, e⟩
  · rw [e]
    obtain ⟨-, -, hsb⟩ := observe_setBmap s'.disk hb
    exact ⟨h.put (hsb h.ok.on)
      (fun a ha => setBit_out (by unfold fsEnd at ha; have := bases; omega)) _, Or.inr hb⟩
  · rw [e]
    exact ⟨⟨⟨h.ok.valid, h.ok.sb, h.ok.on⟩, h.far⟩, Or.inl rfl⟩

theorem Confined.indexEntry (h : Confined s s') {B : ℕ} (hB : B < 131072) (k : ℕ) (a : Bool) :
    Confined s (indexEntry s' B k a).2 := by
  have h1 := h.readBlock B 0
  have h2 := h1.allocBlock.1.setTemp
  unfold Fs.indexEntry
  dsimp only
  split_ifs
  · exact h2 _
  · exact (h2 _).writeBlock hB 0
  · exact h1

theorem Confined.allocIndexBlock (h : Confined s s') (o : ℕ) : Confined s (allocIndexBlock s' o).2 ∧
    ((Fs.allocIndexBlock s' o).1 = neg1 ∨ (Fs.allocIndexBlock s' o).1 < 131072) := by
  obtain ⟨h1, hb⟩ := h.allocBlock
  unfold Fs.allocIndexBlock
  dsimp only
  split_ifs with h0
  · exact ⟨h1, Or.inl rfl⟩
  · exact ⟨(h1.setTemp _).writeBlock (hb.resolve_left h0) o, hb⟩

/-- A new index block is empty. -/
theorem allocIndexBlock_idx (hs : SbOk s) {o : ℕ} (h0 : (allocIndexBlock s o).1 ≠ neg1) (k : ℕ) :
    idx (Fs.allocIndexBlock s o).2.disk (Fs.allocIndexBlock s o).1 k = 0 := by
  unfold Fs.allocIndexBlock at h0 ⊢
  rcases allocBlock_spec hs with ⟨b, hb, -, e⟩ | ⟨-, e⟩
  · simp only [e, ne_neg1 hb, if_false, State.setTemp_eq, writeBlock_eq _ hb, State.put_disk,
      State.put_temp, State.put_put]
    exact idx_of_zero (block_fill_zero _ _ _ _) k
  · simp only [e, if_true, ne_eq, not_true_eq_false] at h0

theorem Confined.doubleEntry (h : Confined s s') {B i : ℕ} (hB : B < 131072) (hi : i < 1024)
    (hw : idx s'.disk B i < 131072) (j : ℕ) (a : Bool) : Confined s (doubleEntry s' B i j a).2 := by
  have h1 := h.readBlock B 0
  have hr := readBlock_word s' hB 0 hi
  obtain ⟨h2, hb⟩ := h1.allocIndexBlock blockSize
  rw [Nat.zero_add] at hr
  unfold Fs.doubleEntry
  dsimp only
  split_ifs with h0 ha hn
  · exact h2
  · have hlt := hb.resolve_left hn
    refine ((h2.setTemp _).writeBlock hB 0).indexEntry ?_ j a
    show word (putWord _ _ _) _ < 131072
    rw [word_putWord_self, Nat.mod_eq_of_lt (by omega)]
    exact hlt
  · exact h1
  · refine h1.indexEntry ?_ j a
    rw [hr]
    exact hw

variable (hs : SbOk s) (h : BlkInv s.disk) {n : ℕ} (hn : imap s.disk n = true) {node : Inode}
  (hnode : node.ptr = (inode s.disk n).ptr)

include hs h hn hnode

theorem confined_getPhysicalBlockId (l : ℕ) (a : Bool) :
    Confined s (getPhysicalBlockId s node n l a).2.2 := by
  have h0 := Confined.refl hs
  have hn' := imap_lt hn
  obtain ⟨h1, -⟩ := h0.allocBlock
  obtain ⟨h2, hb⟩ := h0.allocIndexBlock 0
  have hI : node.indirect < 131072 := by
    rw [show node.indirect = (inode s.disk n).ptr 10 by rw [← hnode]; rfl]
    exact ptr_lt h hn (by norm_num)
  have hDe : node.double = (inode s.disk n).ptr 11 := by rw [← hnode]; rfl
  have hD : node.double < 131072 := by
    rw [hDe]
    exact ptr_lt h hn (by norm_num)
  have hu : ∀ b, b = neg1 ∨ b < 131072 → u32 b = b := by
    rintro b (rfl | hb)
    · rfl
    · exact u32_of_lt (by omega)
  unfold Fs.getPhysicalBlockId
  dsimp only [directBlockNum, indirectBlockNum, doubleIndirectBlockNum]
  split_ifs with c1 c2 c3 c4 c5 c6 c7 c8 c9 c10 c11
  · exact h1
  · exact h1.writeInode hn' _
  · exact h0
  · exact h2
  · refine (h2.writeInode hn' _).indexEntry ?_ _ _
    have e : (node.setIndirect (allocIndexBlock s 0).1).indirect = (allocIndexBlock s 0).1 := hu _ hb
    rw [e] at c7 ⊢
    exact hb.resolve_left c7
  · exact h0
  · exact h0.indexEntry hI _ _
  · exact h2
  · have e : (node.setDouble (allocIndexBlock s 0).1).double = (allocIndexBlock s 0).1 := hu _ hb
    rw [e] at c11 ⊢
    have hlt := hb.resolve_left c11
    have hz := allocIndexBlock_idx hs c11 ((l - 10 - 1024) / 1024)
    refine (h2.writeInode hn' _).doubleEntry hlt (by omega) ?_ _ _
    rw [writeInode_eq _ hn', State.put_disk, idx_congr (block_putInode _ _ hn' _), hz]
    norm_num
  · exact h0
  · exact h0.doubleEntry hD (by omega) (double_lt h hn (by omega) hDe.symm).2 _ _
  · exact h0

/-- `append_dentry` to an inode with at most as many blocks as it can have. -/
theorem confined_appendDentry (hsize : node.size = (inode s.disk n).size)
    (hk : numBlocks (inode s.disk n) < maxBlocks) (dm : Mem) :
    Confined s (appendDentry s node n dm).2 := by
  obtain ⟨t, e, -⟩ := searchFree hnode hsize hk.le fun l hl => h.pathOk hn (by omega)
  have h0 : Confined s (s.put s.disk t) := (Confined.refl hs).put hs.on (fun _ _ => rfl) t
  unfold appendDentry
  cases hf : freeSlot s.disk n with
  | some σ =>
    obtain ⟨hl, -⟩ := firstSlot_some hf
    rw [hf, Option.map_some] at e
    simp only [e]
    exact (h0.setTemp _).writeBlock (h.pblk_lt hn _) 0
  | none =>
    rw [hf, Option.map_none, numBlocks_congr hsize] at e
    simp only [e, numBlocks_congr hsize]
    have h1 := confined_getPhysicalBlockId (s := s.put s.disk t) h0.ok h hn hnode
      (numBlocks (inode s.disk n)) true
    replace h1 : Confined s _ := ⟨h1.ok, h1.far⟩
    by_cases hr : need s.disk n (numBlocks (inode s.disk n)) ≤ freeCount s.disk
    · obtain ⟨d, t', node', e1, hG, hb0, -⟩ := getPhysicalBlockId_room (s := s.put s.disk t) h0.ok h
        hn hnode hk hr
      have hlt := hG.inv.pblk_lt ((hG.imap n).trans hn) (numBlocks (inode s.disk n))
      rw [e1] at h1 ⊢
      rw [if_neg (by rintro (e | e); exacts [ne_neg1 hlt e, hb0 e])]
      exact (h1.setTemp _).writeBlock hlt 0
    · obtain ⟨d, t', node', e1, -⟩ := getPhysicalBlockId_short (s := s.put s.disk t) h0.ok h hn
        hnode hk (not_le.mp hr)
      rw [e1] at h1 ⊢
      rw [if_pos (Or.inl rfl)]
      exact h1

end Confined

end RiscvKernel.Fs
