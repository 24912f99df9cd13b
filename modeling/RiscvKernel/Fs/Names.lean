import RiscvKernel.Fs.Exhaust

/-!
# Names of new entries

When is the name of a new entry found again? `do_mkdir`, `do_touch` and `do_ln` look neither at its
length nor at what became of the allocations. The hard case is `do_mkdir` without a free block: it
writes its new directory over the last 64 inodes of the inode table, so the disk is broken, but a
parent that is not among these inodes is still read correctly (`sameDir_of_blocks`), and without
free blocks `append_dentry` does no more than look for a place (`getPhysicalBlockId_dry`).
-/

namespace RiscvKernel.Fs

open Lib Lib.Forest

/-! ## Without free blocks -/

section Dry

variable {s : State} {n l : ℕ} (h : PathOk s.disk n l) {node : Inode}
  (hnode : node.ptr = (inode s.disk n).ptr) (hl : l < maxBlocks)

/-- An entry that is there is only read. -/
theorem indexEntry_there (s : State) {B k : ℕ} (hB : B < 131072) (hk : k < 1024)
    (h0 : idx s.disk B k ≠ 0) : indexEntry s B k true = (idx s.disk B k, readBlock s B 0) := by
  have hw := readBlock_word s hB 0 hk
  rw [Nat.zero_add] at hw
  unfold indexEntry
  simp only [hw, h0, false_and, if_false]

/-- The two steps below the double indirect pointer. -/
theorem ref_double {d : Mem} {n i j : ℕ} (h0 : (inode d n).ptr 11 ≠ 0)
    (h1 : idx d ((inode d n).ptr 11) i ≠ 0) :
    ref (cells d) (n, 11) [i] = idx d ((inode d n).ptr 11) i ∧
      ref (cells d) (n, 11) [j, i] = idx d (idx d ((inode d n).ptr 11) i) j := by
  have e : ref (cells d) (n, 11) [i] = idx d ((inode d n).ptr 11) i :=
    ref_cons_of_ne (show ref (cells d) (n, 11) [] ≠ 0 from h0)
  refine ⟨e, ?_⟩
  rw [ref_cons_of_ne (by rw [e]; exact h1), e]
  rfl

include h hnode hl

/-- A block that is there is only looked up. -/
theorem getPhysicalBlockId_there (h0 : pblk s.disk n l ≠ 0) :
    ∃ t, getPhysicalBlockId s node n l true = (pblk s.disk n l, node, s.put s.disk t) := by
  unfold maxBlocks at hl
  have hI : node.indirect = (inode s.disk n).ptr 10 := by rw [← hnode]; rfl
  have hD : node.double = (inode s.disk n).ptr 11 := by rw [← hnode]; rfl
  unfold getPhysicalBlockId
  simp only [directBlockNum, indirectBlockNum, doubleIndirectBlockNum, and_true, if_true]
  by_cases h1 : l < 10
  · rw [pblk_direct _ _ h1, ← hnode, Inode.ptr_direct _ h1] at h0 ⊢
    rw [if_pos h1, if_neg h0]
    exact ⟨s.temp, rfl⟩
  rw [if_neg h1]
  unfold PathOk blockPath at h
  rw [if_neg h1] at h
  by_cases h2 : l - 10 < 1024
  · rw [if_pos h2] at h
    have hb : (inode s.disk n).ptr 10 < 131072 := h [] (List.nil_suffix)
    rw [pblk_indirect _ _ (by omega) h2] at h0 ⊢
    have hr : (inode s.disk n).ptr 10 ≠ 0 := fun e => h0 (ref_cons_of_eq e)
    rw [ref_cons_of_ne (show ref (cells s.disk) (n, 10) [] ≠ 0 from hr)] at h0 ⊢
    rw [if_pos h2, hI, if_neg hr, indexEntry_there s hb h2 h0]
    exact ⟨_, rfl⟩
  · rw [if_neg h2] at h
    have hi : (l - 1034) / 1024 < 1024 := by omega
    have hj : (l - 1034) % 1024 < 1024 := by omega
    have hb : (inode s.disk n).ptr 11 < 131072 := h [] (List.nil_suffix)
    have hb2 : ref (cells s.disk) (n, 11) [(l - 1034) / 1024] < 131072 :=
      h _ (List.suffix_cons _ _)
    rw [pblk_double _ _ (by omega)] at h0 ⊢
    have hr2 : ref (cells s.disk) (n, 11) [(l - 1034) / 1024] ≠ 0 := fun e => h0 (ref_cons_of_eq e)
    have hr : (inode s.disk n).ptr 11 ≠ 0 := fun e => hr2 (ref_cons_of_eq e)
    have e1 : ref (cells s.disk) (n, 11) [(l - 1034) / 1024] =
        idx s.disk ((inode s.disk n).ptr 11) ((l - 1034) / 1024) :=
      ref_cons_of_ne (show ref (cells s.disk) (n, 11) [] ≠ 0 from hr)
    rw [e1] at hb2 hr2
    have e3 := (ref_double hr hr2 (j := (l - 1034) % 1024)).2
    have e2 := indexEntry_there (readBlock s ((inode s.disk n).ptr 11) 0) hb2 hj
      (by rw [readBlock_disk, ← e3]; exact h0)
    rw [readBlock_disk, ← e3] at e2
    rw [if_neg h2, if_pos (show l - 10 - 1024 < 1024 * 1024 by omega), hD, show l - 10 - 1024 = l - 1034 by omega, if_neg hr,
      doubleEntry_old hb hi hr2, e2]
    exact ⟨_, rfl⟩

/-- A block that is not there cannot be had. -/
theorem getPhysicalBlockId_dry (hs : SbOk s) (hz : freeCount s.disk = 0)
    (h0 : pblk s.disk n l = 0) :
    ∃ t node', getPhysicalBlockId s node n l true = (neg1, node', (s.put s.disk t).fail) ∧
      (node' = node ∨
        (inode s.disk n).ptr (blockPath l).1 = 0 ∧ Stale (blockPath l).1 node node') := by
  unfold maxBlocks at hl
  have hI : node.indirect = (inode s.disk n).ptr 10 := by rw [← hnode]; rfl
  have hD : node.double = (inode s.disk n).ptr 11 := by rw [← hnode]; rfl
  have hneg : u32 neg1 = neg1 := rfl
  have hx := allocIndexBlock_short hs (o := 0) hz
  unfold getPhysicalBlockId
  simp only [directBlockNum, indirectBlockNum, doubleIndirectBlockNum, and_true, if_true]
  by_cases h1 : l < 10
  · rw [blockPath_fst_direct h1]
    rw [pblk_direct _ _ h1] at h0
    have h0' : node.direct l = 0 := by rw [← Inode.ptr_direct _ h1, hnode, h0]
    rcases allocBlock_cases hs with ⟨b, -, -, -, hc⟩ | ⟨-, e⟩
    · omega
    have hd : (node.setDirect l neg1).direct l = neg1 := by
      rw [← Inode.ptr_direct _ h1, Inode.ptr_setDirect _ h1, if_pos rfl, hneg]
    simp only [if_pos h1, if_pos h0', e, if_pos hd]
    refine ⟨s.temp, _, rfl, Or.inr ⟨h0, ⟨rfl, rfl, rfl, rfl⟩, fun j => ?_⟩⟩
    rw [Inode.ptr_setDirect _ h1, hneg]
  rw [if_neg h1]
  unfold PathOk at h
  by_cases h2 : l - 10 < 1024
  · rw [blockPath_fst_indirect h1 h2] at h ⊢
    have hb : (inode s.disk n).ptr 10 < 131072 := h [] (List.nil_suffix)
    rw [if_pos h2, hI]
    by_cases hr : (inode s.disk n).ptr 10 = 0
    · have hn : (node.setIndirect neg1).indirect = neg1 := rfl
      simp only [if_pos hr, hx, if_pos hn]
      refine ⟨s.temp, _, rfl, Or.inr ⟨hr, ⟨rfl, rfl, rfl, rfl⟩, fun j => ?_⟩⟩
      rw [Inode.ptr_setIndirect, hneg]
    · rw [pblk_indirect _ _ (by omega) h2,
        ref_cons_of_ne (show ref (cells s.disk) (n, 10) [] ≠ 0 from hr)] at h0
      obtain ⟨t, e⟩ := indexEntry_short hs hb h2 h0 hz
      simp only [if_neg hr, e]
      exact ⟨t, node, rfl, Or.inl rfl⟩
  · have hi : (l - 1034) / 1024 < 1024 := by omega
    have hj : (l - 1034) % 1024 < 1024 := by omega
    rw [blockPath_fst_double h1 h2] at h ⊢
    have hb : (inode s.disk n).ptr 11 < 131072 := h [] (List.nil_suffix)
    rw [if_neg h2, if_pos (by omega), hD, show l - 10 - 1024 = l - 1034 by omega]
    by_cases hr : (inode s.disk n).ptr 11 = 0
    · have hn : (node.setDouble neg1).double = neg1 := rfl
      simp only [if_pos hr, hx, if_pos hn]
      refine ⟨s.temp, _, rfl, Or.inr ⟨hr, ⟨rfl, rfl, rfl, rfl⟩, fun j => ?_⟩⟩
      rw [Inode.ptr_setDouble, hneg]
    · have hw := readBlock_word s hb 0 hi
      rw [Nat.zero_add] at hw
      simp only [if_neg hr]
      by_cases hr2 : idx s.disk ((inode s.disk n).ptr 11) ((l - 1034) / 1024) = 0
      · have hx2 := allocIndexBlock_short (hs.readBlock ((inode s.disk n).ptr 11) 0) (o := blockSize)
          (by rw [readBlock_disk]; exact hz)
        unfold doubleEntry
        simp only [hw, hr2, hx2, if_true]
        exact ⟨_, node, rfl, Or.inl rfl⟩
      · have hb2 : ref (cells s.disk) (n, 11) [(l - 1034) / 1024] < 131072 := by
          refine h _ ?_
          unfold blockPath
          rw [if_neg h1, if_neg h2]
          exact List.suffix_cons _ _
        rw [pblk_double _ _ (by omega), (ref_double hr hr2).2] at h0
        rw [(ref_double hr hr2 (j := 0)).1] at hb2
        obtain ⟨t, e⟩ := indexEntry_short (hs.readBlock ((inode s.disk n).ptr 11) 0) hb2 hj
          (by rw [readBlock_disk]; exact h0) (by rw [readBlock_disk]; exact hz)
        rw [readBlock_disk] at e
        rw [doubleEntry_old hb hi hr2, e]
        exact ⟨t, node, rfl, Or.inl rfl⟩

end Dry

/-- No block is needed where one is. -/
theorem need_eq_zero (d : Mem) (n : ℕ) {l : ℕ} (hl : l < maxBlocks) :
    need d n l = 0 ↔ pblk d n l ≠ 0 := by
  unfold maxBlocks at hl
  unfold need
  by_cases h1 : l < 10
  · rw [if_pos h1, pblk_direct _ _ h1]
    split_ifs with h0
    · simp [h0]
    · simp [h0]
  rw [if_neg h1]
  by_cases h2 : l - 10 < 1024
  · rw [if_pos h2, pblk_indirect _ _ (by omega) h2]
    by_cases h0 : (inode d n).ptr 10 = 0
    · rw [if_pos h0, ref_cons_of_eq (show ref (cells d) (n, 10) [] = 0 from h0)]
      simp
    · rw [if_neg h0, ref_cons_of_ne (show ref (cells d) (n, 10) [] ≠ 0 from h0)]
      show _ ↔ idx d ((inode d n).ptr 10) (l - 10) ≠ 0
      split_ifs with h3 <;> simp [h3]
  · rw [if_neg h2, pblk_double _ _ (by omega)]
    by_cases h0 : (inode d n).ptr 11 = 0
    · rw [if_pos h0, ref_cons_of_eq (ref_cons_of_eq (show ref (cells d) (n, 11) [] = 0 from h0))]
      simp
    rw [if_neg h0]
    by_cases h3 : idx d ((inode d n).ptr 11) ((l - 1034) / 1024) = 0
    · have e : ref (cells d) (n, 11) [(l - 1034) / 1024] = 0 := by
        rw [ref_cons_of_ne (show ref (cells d) (n, 11) [] ≠ 0 from h0)]
        exact h3
      rw [if_pos h3, ref_cons_of_eq e]
      simp
    · rw [if_neg h3, (ref_double h0 h3).2]
      split_ifs with h4 <;> simp [h4]

section Attach

variable {s : State} {p : ℕ} (hp : p < 4096) (hk : endBlock s.disk p < maxBlocks)
  (hpath : ∀ l ≤ endBlock s.disk p, PathOk s.disk p l) (hno : freeSlot s.disk p = none)

include hp hk hpath hno

/-- The next block is there already: it gets the entry. -/
theorem attach_there (h0 : pblk s.disk p (endBlock s.disk p) ≠ 0) (dm : Mem) :
    ∃ t u, attach s p dm = s.put (putInode (putBlock s.disk (pblk s.disk p (endBlock s.disk p)) u 0)
        p ((inode s.disk p).setSize ((inode s.disk p).size + blockSize))) t ∧
      (∀ i < 20, u i = dm i) ∧ ∀ i, 20 ≤ i → i < 4096 → u i = 0#8 := by
  have hn : numBlocks (inode s.disk p) = endBlock s.disk p := rfl
  obtain ⟨t, e, -⟩ := searchFree (Eq.refl (inode s.disk p).ptr) rfl hk.le
    fun l hl => hpath l (le_of_lt hl)
  rw [hno, Option.map_none, hn] at e
  obtain ⟨t', e1⟩ := getPhysicalBlockId_there (s := s.put s.disk t) (hpath _ le_rfl)
    (Eq.refl (inode s.disk p).ptr) hk h0
  have hlt := (hpath _ le_rfl).pblk_lt
  simp only [State.put_disk, State.put_put] at e1
  unfold attach appendDentry
  simp only [getInode_eq s hp, hn, e, e1, ne_neg1 hlt, h0, or_self, if_false, State.setTemp_eq,
    State.put_temp, State.put_disk, State.put_put, writeBlock_eq _ hlt, writeInode_eq _ hp]
  refine ⟨_, _, rfl, fun i hi => ?_, fun i h1 h2 => ?_⟩
  · rw [blit_in_of_le (by omega) (by simp only [dentrySize]; omega), Nat.zero_add, Nat.sub_zero]
  · rw [blit_out (by simp only [dentrySize]; omega),
      fill_in (by omega) (by simp only [blockSize]; omega)]

/-- The next block is not there and cannot be had. -/
theorem attach_dry (hs : SbOk s) (hz : freeCount s.disk = 0)
    (h0 : pblk s.disk p (endBlock s.disk p) = 0) (dm : Mem) :
    ∃ t x, attach s p dm = (s.put (putInode s.disk p x) t).fail ∧
      (x = inode s.disk p ∨
        topPtr s.disk p = 0 ∧ Stale (blockPath (endBlock s.disk p)).1 (inode s.disk p) x) := by
  have hn : numBlocks (inode s.disk p) = endBlock s.disk p := rfl
  obtain ⟨t, e, -⟩ := searchFree (Eq.refl (inode s.disk p).ptr) rfl hk.le
    fun l hl => hpath l (le_of_lt hl)
  rw [hno, Option.map_none, hn] at e
  obtain ⟨t', x, e1, hx⟩ := getPhysicalBlockId_dry (s := s.put s.disk t) (hpath _ le_rfl)
    (Eq.refl (inode s.disk p).ptr) hk (hs.put hs.on t) hz h0
  have hw : ∀ s : State, writeInode s.fail p x = (writeInode s p x).fail := fun _ => rfl
  simp only [State.put_disk, State.put_put] at e1
  unfold attach appendDentry
  simp only [getInode_eq s hp, hn, e, e1, true_or, if_true, hw, writeInode_eq _ hp,
    State.put_temp, State.put_disk, State.put_put]
  exact ⟨t', x, rfl, hx⟩

end Attach

/-! ## Lookups after the attachment -/

/-- The same block is written to two disks. -/
theorem block_putBlock_congr {d d' : Mem} {c : ℕ} (h : block d' c = block d c) {b : ℕ} {t t' : Mem}
    (ht : ∀ i < 4096, t' i = t i) :
    block (putBlock d' b t' 0) c = block (putBlock d b t 0) c := by
  by_cases hc : c = b
  · subst hc
    funext i
    by_cases hi : i < 4096
    · rw [block_putBlock_self _ _ _ _ hi, block_putBlock_self _ _ _ _ hi, Nat.zero_add, ht i hi]
    · unfold block
      rw [if_neg hi, if_neg hi]
  · rw [block_putBlock_of_ne _ _ _ hc, block_putBlock_of_ne _ _ _ hc, h]

theorem Linked.readable {p : ℕ} {σ : Slot} {e : CStr × ℕ} {d d' : Mem} (h : Linked p σ e d d') :
    Readable d' p := by
  obtain ⟨hm, hd, -⟩ := ent_some (show Fs.ent d' σ = some e by rw [h.ent, Function.update_self])
  rw [h.owner] at hm hd
  have hk := h.ok.blocks_le h.only.inv hm
  exact ⟨hm, hd, h.ok, hk, fun l hl => h.only.inv.pathOk hm (by unfold maxBlocks; omega)⟩

theorem Linked.lookup {s : State} {p n : ℕ} {σ : Slot} {x : CStr} {d : Mem}
    (h : Linked p σ (x, n) d s.disk) (hx : 0#8 ∉ x)
    (hno : ∀ σ m, σ.1 = p → Fs.ent d σ ≠ some (x, m)) : dirLookup s.disk p x = n := by
  have hr := h.readable
  rw [← hr.find hx]
  exact find_linked h hr.imap hr.dir hx hno

theorem Readable.bump {s : State} {p : ℕ} (h : Readable s.disk p) :
    SameDir p s.disk (bumpLinks s p).disk := by
  have hp := imap_lt h.imap
  unfold bumpLinks
  rw [getInode_eq s hp, writeInode_eq _ hp]
  exact h.putMeta rfl rfl rfl

/-- The lookup in a directory that is the same on a good disk. -/
theorem Readable.find_same {s : State} {d : Mem} {p : ℕ} (h : Readable d p)
    (hS : SameDir p d s.disk) {x : CStr} (hx : 0#8 ∉ x) :
    (findInodeByName s p x).1 = dirLookup d p x := by
  rw [(h.same hS).find hx, hS.dirLookup]

/-- A name that no entry has is not found. -/
theorem Readable.dirLookup_none {s : State} {p : ℕ} (h : Readable s.disk p) {x : CStr}
    (hx : 0#8 ∉ x) (hno : ∀ σ m, σ.1 = p → ent s.disk σ ≠ some (x, m)) :
    dirLookup s.disk p x = neg1 := by
  rw [← h.find hx]
  rcases findInodeByName_spec h.imap h.dir h.ok h.le h.path hx with
    ⟨σ, m, t, hσ, hm, -⟩ | ⟨-, t, e⟩
  · exact absurd hm (hno σ m hσ)
  · rw [e]

section Intact

variable {p : ℕ} {d d' : Mem} (h : Intact p d d') (hb : BlkInv d) (hp : Fs.imap d p = true)

include h hb hp

theorem Intact.ent {σ : Slot} (hσ : σ.1 = p) : Fs.ent d' σ = Fs.ent d σ := by
  subst hσ
  exact ent_congr h.imap h.inode fun _ => h.fileBlock hb hp _

theorem Intact.sameDir (hr : Readable d p) : SameDir p d d' := by
  have hle := hr.le
  exact ⟨h.imap, by rw [h.inode], by rw [h.inode],
    fun l hl => h.pathOk hb hp (by unfold maxBlocks; omega), fun l _ => h.pblk hb hp l,
    fun l _ => h.fileBlock hb hp l⟩

end Intact

/-- The name is found if and only if there was room for the entry. What is written after the entry
leaves the directory. -/
theorem find_attach {s u : State} {p n : ℕ} {x : CStr} {dm : Mem} (hs : SbOk s) (h : BlkInv s.disk)
    (hr : Readable s.disk p) (hx0 : 0#8 ∉ x) (hx : NameOk x)
    (hno : ∀ σ m, σ.1 = p → ent s.disk σ ≠ some (x, m)) (hn : n ≠ neg1)
    (hdm : dentryAt dm 0 = some (x, n))
    (hu : Readable (attach s p dm).disk p → SameDir p (attach s p dm).disk u.disk) :
    (findInodeByName u p x).1 = n ↔ Room s.disk p := by
  by_cases hroom : Room s.disk p
  · obtain ⟨σ, d, t, e, hL⟩ := attach_linked hs h hr (e := (x, n))
      (by have := hx.2; show x.length < 16; omega) hdm hroom
    rw [e] at hu
    have hlook : dirLookup d p x = n := Linked.lookup (s := s.put d t) hL hx0 hno
    rw [hL.readable.find_same (hu hL.readable) hx0]
    exact iff_of_true hlook hroom
  · have hS := attach_same hs h hr hroom dm
    rw [hr.find_same (hS.trans (hu (hr.same hS))) hx0, hr.dirLookup_none hx0 hno]
    exact iff_of_false hn.symm hroom

/-! ## The types of inodes -/

theorem getPhysicalBlockId_type (s : State) (node : Inode) (n l : ℕ) (a : Bool) :
    (getPhysicalBlockId s node n l a).2.1.type = node.type := by
  unfold getPhysicalBlockId
  dsimp only
  split_ifs <;> rfl

theorem searchDentry_type (P : Mem → ℕ → Bool) (p : ℕ) {n i : ℕ} {node : Inode} {s : State} :
    (searchDentry P p i n node s).2.1.type = node.type := by
  induction n generalizing i node s with
  | zero => rfl
  | succ n ih =>
    have hg := getPhysicalBlockId_type s node p i false
    rw [searchDentry]
    dsimp only
    split
    · exact ih.trans hg
    · split
      · exact hg
      · exact ih.trans hg

theorem appendDentry_type (s : State) (node : Inode) (p : ℕ) (dm : Mem) :
    (appendDentry s node p dm).1.type = node.type := by
  have hs : (searchDentry isFree p 0 (numBlocks node) node s).2.1.type = node.type := searchDentry_type isFree p
  unfold appendDentry
  dsimp only
  split
  · rename_i e
    rw [e] at hs
    exact hs
  · rename_i node' s' e
    rw [e] at hs
    have hg := getPhysicalBlockId_type s' node' p (numBlocks node) true
    split
    · exact hg.trans hs
    · rw [Inode.type_setSize]
      exact hg.trans hs

theorem attach_type (s : State) {p : ℕ} (hp : p < 4096) (dm : Mem) :
    (inode (attach s p dm).disk p).type = (inode s.disk p).type := by
  unfold attach
  rw [getInode_eq s hp]
  have h := appendDentry_type s (inode s.disk p) p dm
  dsimp only
  rw [writeInode_eq _ hp, State.put_disk, inode_putInode_self _ _ hp, h]

/-! ## A spoilt inode table -/

/-- The block with the two entries is zero where they have no name and no number. -/
theorem putDots_gap (t : Mem) (a b : ℕ) {i : ℕ} (hi : i < 4096) (h2 : 2 ≤ i)
    (h : i < 16 ∨ 40 ≤ i) : putDots (fill t 0 0#8 4096) a b i = 0#8 := by
  have h1 : dot.length = 1 := rfl
  have h3 : dotdot.length = 2 := rfl
  unfold putDots putWord
  simp only [dentrySize, maxFnameLen]
  rw [putLe_out (by omega), strcpy_out (by rw [h3]; omega), putLe_out (by omega),
    strcpy_out (by rw [h1]; omega), fill_in (by omega) (by omega)]

theorem word_zero {m : Mem} {a : ℕ} (h : ∀ i < 4, m (a + i) = 0#8) : word m a = 0 := by
  have hzero : word m a = word (fun _ => 0#8) 0 := word_congr h
  rw [hzero]
  decide

section Observe

variable (d : Mem) {n : ℕ} (hn : n < 4096) (q : ℕ) (t : Mem)

include hn in
theorem observe_spoilt : (∀ m ≠ n, imap (spoiltDisk d n q t) m = imap d m) ∧
    (∀ b, bmap (spoiltDisk d n q t) b = bmap d b) ∧
    (∀ m ≠ n, m < 4032 → inode (spoiltDisk d n q t) m = inode d m) ∧
    (∀ b, block (spoiltDisk d n q t) b = block d b) ∧
    (SbOn d → SbOn (spoiltDisk d n q t)) := by
  obtain ⟨o1, o2, o3⟩ := observe_setImap d hn
  have hbs := bases
  unfold spoiltDisk
  refine ⟨fun m hm => ?_, fun b => ?_, fun m hm h4 => ?_, fun b => ?_, fun hs i hi => ?_⟩
  · rw [imap_congr fun _ => blit_out (by omega), imap_putInode, imap_setBit _ hn,
      decide_eq_false hm, Bool.false_or]
  · rw [bmap_congr fun _ => blit_out (by omega), bmap_putInode, bmap_setImap _ hn]
  · rw [inode_congr fun _ _ _ => blit_out (by omega), inode_putInode_of_ne _ _ hm, o1]
  · rw [block_congr fun _ _ => blit_out (by omega), block_putInode _ _ hn, o2]
  · rw [blit_out (by omega)]
    exact ((o3 hs).putInode _ _) i hi

/-- The last inodes have no type. -/
theorem type_spoilt {m : ℕ} (h1 : 4032 ≤ m) (h2 : m < 4096) :
    (inode (spoiltDisk d n q t) m).type = 0 := by
  rw [inode, if_pos h2]
  refine word_zero fun i hi => ?_
  have e : 0 + (itabBase + 64 * m + 4 + i - (itabBase + 64 * 4032)) = 64 * (m - 4032) + 4 + i := by
    omega
  have h64 : 64 * (m - 4032) + 4 + i < 4096 := by omega
  unfold spoiltDisk
  rw [blit_in_of_le (by omega) (by omega), e]
  generalize 64 * (m - 4032) = k at *
  exact putDots_gap t n q h64 (by omega) (by omega)

end Observe

/-! ## A disk that is good near the directory -/

/-- The inode of the directory and all blocks are the same on the two disks. -/
structure Near (p : ℕ) (d d' : Mem) : Prop where
  imap : imap d' p = imap d p
  inode : inode d' p = inode d p
  block : ∀ b < 131072, block d' b = block d b

section Near

variable {p : ℕ} {d d' : Mem} (h : Near p d d')

include h

theorem Near.pathOk {l : ℕ} (hl : PathOk d p l) : PathOk d' p l :=
  pathOk_of_blocks h.block hl (by rw [h.inode])

theorem Near.pblk {l : ℕ} (hl : PathOk d p l) :
    pblk d' p l = pblk d p l ∧ fileBlock d' p l = fileBlock d p l :=
  pblk_of_blocks h.block hl (by rw [h.inode])

theorem Near.endBlock : endBlock d' p = endBlock d p := by
  unfold Fs.endBlock
  rw [h.inode]

theorem Near.freeSlot (hpath : ∀ l < Fs.endBlock d p, PathOk d p l) :
    freeSlot d' p = freeSlot d p := by
  unfold Fs.freeSlot
  rw [h.inode]
  exact firstSlot_congr (fun l hl => (h.pblk (hpath l hl)).1)
    (fun l hl => (h.pblk (hpath l hl)).2) _

theorem Near.sameDir (hr : Readable d p) : SameDir p d d' :=
  sameDir_of_blocks h.block hr.path h.imap (by rw [h.inode]) (by rw [h.inode])
    fun _ _ => by rw [h.inode]

theorem Near.putBlock (b : ℕ) {t t' : Mem} (ht : ∀ i < 4096, t' i = t i) :
    Near p (putBlock d b t 0) (putBlock d' b t' 0) where
  imap := by rw [imap_putBlock, imap_putBlock, h.imap]
  inode := by rw [inode_putBlock, inode_putBlock, h.inode]
  block c hc := block_putBlock_congr (h.block c hc) ht

theorem Near.putInode (hp : p < 4096) (x : Inode) : Near p (putInode d p x) (putInode d' p x) where
  imap := by rw [imap_putInode, imap_putInode, h.imap]
  inode := by rw [inode_putInode_self _ _ hp, inode_putInode_self _ _ hp]
  block c hc := by rw [block_putInode _ _ hp, block_putInode _ _ hp, h.block c hc]

end Near

section Attach

variable {s s' : State} {p : ℕ} (h : Near p s.disk s'.disk) (hp : imap s.disk p = true)
  (hk : endBlock s.disk p < maxBlocks) (hpath : ∀ l ≤ endBlock s.disk p, PathOk s.disk p l)

include h hp hk hpath

theorem near_slot {l j : ℕ} (hfs : freeSlot s.disk p = some (l, j)) (dm : Mem) :
    Near p (attach s p dm).disk (attach s' p dm).disk := by
  have hlt : ∀ l < endBlock s.disk p, PathOk s.disk p l := fun l hl => hpath l (le_of_lt hl)
  obtain ⟨hl, -, hj, -⟩ := firstSlot_some hfs
  obtain ⟨t, e⟩ := attach_slot hp hk.le hlt hfs dm
  obtain ⟨t', e'⟩ := attach_slot (s := s') (h.imap.trans hp) (h.endBlock.trans_le hk.le)
    (fun l hl => h.pathOk (hlt l (hl.trans_eq h.endBlock))) ((h.freeSlot hlt).trans hfs) dm
  obtain ⟨hpl, hfl⟩ := h.pblk (hlt l hl)
  rw [e, e', State.put_disk, State.put_disk, ← putBlock_writeSlot hj (fun _ _ => rfl) dm,
    ← putBlock_writeSlot hj (fun _ _ => rfl) dm, hpl, hfl]
  exact h.putBlock _ fun _ _ => rfl

theorem near_there (hno : freeSlot s.disk p = none) (h0 : pblk s.disk p (endBlock s.disk p) ≠ 0)
    (dm : Mem) : Near p (attach s p dm).disk (attach s' p dm).disk := by
  have hp' := imap_lt hp
  have hlt : ∀ l < endBlock s.disk p, PathOk s.disk p l := fun l hl => hpath l (le_of_lt hl)
  have hpl := (h.pblk (hpath _ le_rfl)).1
  have h0' : pblk s'.disk p (endBlock s'.disk p) ≠ 0 := by
    rw [h.endBlock, hpl]
    exact h0
  obtain ⟨t, u, e, hu, hz⟩ := attach_there hp' hk hpath hno h0 dm
  obtain ⟨t', u', e', hu', hz'⟩ := attach_there hp' (h.endBlock.trans_lt hk)
    (fun l hl => h.pathOk (hpath l (hl.trans_eq h.endBlock))) ((h.freeSlot hlt).trans hno) h0' dm
  rw [e, e', State.put_disk, State.put_disk, h.endBlock, hpl, h.inode]
  refine (h.putBlock _ fun i hi => ?_).putInode hp' _
  by_cases h20 : i < 20
  · rw [hu i h20, hu' i h20]
  · rw [hz i (by omega) hi, hz' i (by omega) hi]

end Attach

/-- Without a place and without free blocks, the directory is as before. -/
theorem attach_dry_same {s : State} {p : ℕ} (hr : Readable s.disk p) (hs : SbOk s)
    (hz : freeCount s.disk = 0) (hpath : PathOk s.disk p (endBlock s.disk p))
    (hno : freeSlot s.disk p = none) (h0 : pblk s.disk p (endBlock s.disk p) = 0) (dm : Mem) :
    SameDir p s.disk (attach s p dm).disk := by
  have hk : endBlock s.disk p = dirBlocks s.disk p := hr.ok.numBlocks_eq hr.le rfl
  have hle := hr.le
  have hkm : endBlock s.disk p < maxBlocks := by
    rw [hk]
    unfold maxBlocks
    omega
  obtain ⟨t, x, e, hx⟩ := attach_dry (imap_lt hr.imap) hkm (fun l hl => (eq_or_lt_of_le hl).elim
    (fun h => h ▸ hpath) fun h => hr.path l (h.trans_eq hk)) hno hs hz h0 dm
  rw [e]
  show SameDir p s.disk (putInode s.disk p x)
  rcases hx with rfl | ⟨ht, hS⟩
  · exact hr.putMeta rfl rfl rfl
  · exact hr.putStale ht hS

/-! ## `do_mkdir` without a free block -/

section Spoilt

variable {s : State} (h : WfState s) {p n : ℕ} (hr : Readable s.disk p) (hn : n < 4096)
  (hpn : p ≠ n) (hz : freeCount s.disk = 0) {x : CStr} (hx0 : 0#8 ∉ x) (hx : NameOk x)
  (hno : ∀ σ m, σ.1 = p → ent s.disk σ ≠ some (x, m)) (t t' : Mem)

include h hr hn hpn hz hx0 hx hno

/-- The name is found if the parent is not among the inodes that are overwritten and has a place for
the entry. -/
theorem find_spoilt : (findInodeByName (bumpLinks (attach (s.put (spoiltDisk s.disk n p t) t').fail p
      (mkDentry s.stack x n)) p) p x).1 = n ↔
    p < 4032 ∧ (freeSlot s.disk p ≠ none ∨ need s.disk p (endBlock s.disk p) = 0) := by
  have hp := hr.imap
  have hp' := imap_lt hp
  have hnn : neg1 ≠ n := (ne_neg1 (by omega)).symm
  obtain ⟨o1, o2, o3, o4, o5⟩ := observe_spoilt s.disk hn p t
  generalize hsp : (s.put (spoiltDisk s.disk n p t) t').fail = sp
  have hd : sp.disk = spoiltDisk s.disk n p t := by
    rw [← hsp]
    rfl
  by_cases h4 : p < 4032
  swap
  · refine iff_of_false (fun e => ?_) fun hc => h4 hc.1
    have hty : ¬ isDir (bumpLinks (attach sp p (mkDentry s.stack x n)) p).disk p := by
      unfold isDir bumpLinks
      rw [getInode_eq _ hp', writeInode_eq _ hp', State.put_disk, inode_putInode_self _ _ hp',
        Inode.type_setNlinks, attach_type _ hp', hd, type_spoilt _ _ _ (by omega) hp']
      decide
    rw [findInodeByName_of_not_dir hp' hty] at e
    exact hnn e
  rw [and_iff_right h4]
  have hN : Near p s.disk sp.disk := by
    rw [hd]
    exact ⟨o1 p hpn, o3 p hpn h4, fun b _ => o4 b⟩
  have hk : endBlock s.disk p = dirBlocks s.disk p := hr.ok.numBlocks_eq hr.le rfl
  have hle := hr.le
  have hkm : endBlock s.disk p < maxBlocks := by
    rw [hk]
    unfold maxBlocks
    omega
  have hpath : ∀ l ≤ endBlock s.disk p, PathOk s.disk p l :=
    fun l hl => h.wf.blk.pathOk hp (by omega)
  have hdm := dentryAt_mkDentry s.stack hx0 hx.1 (by have := hx.2; omega) (show n < 2 ^ 32 by omega)
  generalize mkDentry s.stack x n = dm at hdm
  have hgood : Room s.disk p → Near p (attach s p dm).disk (attach sp p dm).disk →
      (findInodeByName (bumpLinks (attach sp p dm) p) p x).1 = n := by
    intro hroom hA
    obtain ⟨σ, d, u, e, hL⟩ := attach_linked h.sbOk h.wf.blk hr (e := (x, n))
      (by have := hx.2; show x.length < 16; omega) hdm hroom
    rw [e] at hA
    have hS := hA.sameDir hL.readable
    have hlook : dirLookup d p x = n := Linked.lookup (s := s.put d u) hL hx0 hno
    rw [hL.readable.find_same (hS.trans (hL.readable.same hS).bump) hx0, hlook]
  cases hfs : freeSlot s.disk p with
  | some σ =>
    refine iff_of_true (hgood (Or.inl ?_) (near_slot hN hp hkm hpath hfs dm)) (Or.inl nofun)
    rw [hfs]
    exact nofun
  | none =>
    by_cases h0 : need s.disk p (endBlock s.disk p) = 0
    · refine iff_of_true (hgood (Or.inr (by omega)) ?_) (Or.inr h0)
      exact near_there hN hp hkm hpath hfs ((need_eq_zero _ _ hkm).mp h0) dm
    · refine iff_of_false (fun e => ?_) fun hc => hc.elim (fun hc => hc rfl) h0
      rw [need_eq_zero _ _ hkm, not_not] at h0
      have hS := hN.sameDir hr
      have hsb : SbOk sp := by
        rw [← hsp]
        exact ⟨h.valid, h.sb, o5 h.wf.sb⟩
      have hS' := attach_dry_same (hr.same hS) hsb (by rw [hd, freeCount_congr o2, hz])
        (by rw [hN.endBlock]; exact hN.pathOk (hpath _ le_rfl))
        ((hN.freeSlot fun l hl => hpath l (le_of_lt hl)).trans hfs)
        (by rw [hN.endBlock, (hN.pblk (hpath _ le_rfl)).1]; exact h0) dm
      have hall := (hS.trans hS').trans (hr.same (hS.trans hS')).bump
      rw [hr.find_same hall hx0, hr.dirLookup_none hx0 hno] at e
      exact hnn e

end Spoilt

/-! ## The names of new entries -/

/-- The inode a creation links. -/
def Creation.linked (s : State) : Creation → ℕ
  | mkdir _ => (allocInode s).1
  | touch _ => (allocInode s).1
  | ln src _ => (findInodeByPath s src).1

/-- Names that cannot be stored are refused, and the others are found after a success. -/
structure NamesKept (s : State) (c : Creation) : Prop where
  refused : ¬ NameOk (lastName c.path) → (c.run s).1 = -1 ∧ (c.run s).2.disk = s.disk
  found : (c.run s).1 ≠ -1 → isDir s.disk (parentOf s c.path) →
    (findInodeByName (c.run s).2 (parentOf s c.path) (lastName c.path)).1 = c.linked s ∧
      c.linked s ≠ neg1

/-- There is a place for the entry of a successful creation. -/
def Placed (s : State) : Creation → Prop
  | .mkdir path => ¬ InodesFull s.disk ∧
    if freeCount s.disk = 0 then
      parentOf s path < 4032 ∧ (freeSlot s.disk (parentOf s path) ≠ none ∨
        need s.disk (parentOf s path) (endBlock s.disk (parentOf s path)) = 0)
    else
      freeSlot s.disk (parentOf s path) ≠ none ∨
        need s.disk (parentOf s path) (endBlock s.disk (parentOf s path)) + 1 ≤ freeCount s.disk
  | .touch path => InodesFull s.disk ∨ Room s.disk (parentOf s path)
  | .ln _ path => Room s.disk (parentOf s path)

/-- `do_touch` has no free inode, and writes what is on the disk already. -/
def Rewrites (s : State) : Creation → Prop
  | .mkdir _ => False
  | .ln _ _ => False
  | .touch path => InodesFull s.disk ∧ farDisk s.disk = s.disk ∧
    match freeSlot s.disk (parentOf s path) with
    | some σ => writeSlot s.disk (parentOf s path) σ (mkDentry s.stack (lastName path) neg1) = s.disk
    | none => Lost s.disk (parentOf s path)

section Found

variable {s : State} (h : WfState s) {path : CStr}

include h

theorem doMkdir_found (h0 : 0#8 ∉ path) (hx : NameOk (lastName path)) (hv : Vacant s path)
    (hd : isDir s.disk (parentOf s path)) :
    ((findInodeByName (doMkdir s path).2 (parentOf s path) (lastName path)).1 = (allocInode s).1 ∧
      (allocInode s).1 ≠ neg1) ↔ Placed s (.mkdir path) := by
  have hx0 := zero_notMem_lastName h0
  rcases h.doMkdir_cases h0 with ⟨hn, -⟩ | ⟨hP, t, e⟩
  · exact absurd hv hn
  have hr := h.wf.readable hP.live hd
  rw [e, mkdirAt_eq (imap_lt hP.live), allocInode_put h.valid t]
  show _ ↔ ¬ InodesFull s.disk ∧ _
  by_cases hf : InodesFull s.disk
  · have hfull : (allocInode s).1 = neg1 ∧ (mkdirState (s.put s.disk t) (parentOf s path)).allocFailed = true :=
      mkdirState_full h t hf
    exact iff_of_false (fun hc => hc.2 hfull.1) fun hc => hc.1 hf
  rw [and_iff_right hf]
  by_cases hz : freeCount s.disk = 0
  · obtain ⟨n, t', hn, hnd, e1, e2⟩ : ∃ n t', n < 4096 ∧ imap s.disk n = false ∧ (allocInode s).1 = n ∧
        mkdirState (s.put s.disk t) (parentOf s path) =
          (s.put (spoiltDisk s.disk n (parentOf s path) t) t').fail := mkdirState_spoilt h t hf hz
    have hpn : parentOf s path ≠ n := by
      rintro hpn
      rw [← hpn, hP.live] at hnd
      cases hnd
    rw [if_pos hz, e1, e2, and_iff_left (ne_neg1 (show n < 131072 by omega))]
    exact find_spoilt h hr hn hpn hz hx0 hx hP.fresh t t'
  · obtain ⟨n, b, t', s', hn, -, e1, -, -, e2, -, hsb, hB, hc, hp, hI, -⟩ :=
      mkdirState_ok h t hP hf hz
    have hnn : n ≠ neg1 := ne_neg1 (by omega)
    have hr' := hr.same (hI.sameDir h.wf.blk hP.live hr)
    rw [if_neg hz, e1, e2, and_iff_left hnn, find_attach hsb hB.inv hr' hx0 hx (fun σ m hσ => by
        rw [hI.ent h.wf.blk hP.live hσ]; exact hP.fresh σ m hσ) hnn
        (dentryAt_mkDentry _ hx0 hx.1 (by have := hx.2; omega) (by omega)) fun hr => hr.bump,
      hI.room h.wf.blk hP.live (h.wf.endBlock_lt hP.live)]
    refine or_congr_right ?_
    omega

theorem doTouch_found (h0 : 0#8 ∉ path) (hx : NameOk (lastName path)) (hv : Vacant s path)
    (hd : isDir s.disk (parentOf s path)) (hf : ¬ InodesFull s.disk) :
    ((findInodeByName (doTouch s path).2 (parentOf s path) (lastName path)).1 = (allocInode s).1 ∧
      (allocInode s).1 ≠ neg1) ↔ Room s.disk (parentOf s path) := by
  have hx0 := zero_notMem_lastName h0
  rcases h.doTouch_cases h0 with ⟨hn, -⟩ | ⟨hP, t, e⟩
  · exact absurd hv hn
  have hr := h.wf.readable hP.live hd
  obtain ⟨n, s', hn, -, e1, hs', hsb, hB, hp, hk, e2⟩ := touchAt_free h hP t hf (lastName path)
  have hnn : n ≠ neg1 := ne_neg1 (by omega)
  have hI : Intact (parentOf s path) s.disk s'.disk := by
    rw [hs']
    exact intact_fileDisk hn (hB.ne hP.live)
  have hc : freeCount s'.disk = freeCount s.disk := by
    rw [hs']
    exact freeCount_fileDisk hn
  have hr' := hr.same (hI.sameDir h.wf.blk hP.live hr)
  rw [e, e2, e1, and_iff_left hnn, find_attach hsb hB.inv hr' hx0 hx (fun σ m hσ => by
      rw [hI.ent h.wf.blk hP.live hσ]; exact hP.fresh σ m hσ) hnn
      (dentryAt_mkDentry _ hx0 hx.1 (by have := hx.2; omega) (by omega))
      fun hr => hr.refl,
    hI.room h.wf.blk hP.live (h.wf.endBlock_lt hP.live), hc]
  rfl

theorem doLn_found {src : CStr} (h1 : 0#8 ∉ src) (h0 : 0#8 ∉ path) (hx : NameOk (lastName path))
    (hS : SourceOk s src) (hv : Vacant s path) (hd : isDir s.disk (parentOf s path)) :
    ((findInodeByName (doLn s src path).2 (parentOf s path) (lastName path)).1 =
        (findInodeByPath s src).1 ∧ (findInodeByPath s src).1 ≠ neg1) ↔
      Room s.disk (parentOf s path) := by
  have hx0 := zero_notMem_lastName h0
  rcases h.doLn_cases h0 h1 with ⟨hn, -⟩ | ⟨-, hlive, hP, t, e⟩
  · exact absurd ⟨hS, hv⟩ hn
  have hr := h.wf.readable hP.live hd
  have hm := imap_lt hlive
  have hps : parentOf s path ≠ (findInodeByPath s src).1 := fun hc => hS.2 (hc ▸ hd)
  rw [e, and_iff_left hS.1]
  refine find_attach (s := s.put s.disk t) (h.put_temp t).sbOk h.wf.blk hr hx0 hx hP.fresh hS.1
    (dentryAt_mkDentry (s.put s.disk t).stack hx0 hx.1 (by have := hx.2; omega) (by omega))
    fun hr => ?_
  unfold linkAt
  dsimp only
  rw [writeInode_eq _ hm, State.put_disk]
  exact hr.putOther hm hps _

end Found

/-- An entry written without a free inode is there already, and so is the inode behind the file
system. -/
theorem writeSlot_far {d : Mem} (h : BlkInv d) {p l j : ℕ} (hp : imap d p = true) (hj : j < 204)
    (dm : Mem) : writeSlot (farDisk d) p (l, j) dm = d ↔
      farDisk d = d ∧ writeSlot d p (l, j) dm = d := by
  have hlt := (agree_farDisk d).pblk h hp l ▸ h.pblk_lt hp l
  constructor
  · intro e
    have hfar : farDisk d = d := by
      funext a
      by_cases ha : farBase ≤ a
      · have e1 := congrFun e a
        unfold writeSlot at e1
        rwa [blit_out (by have := farBase_ge; unfold fsEnd at this; dsimp only; omega)] at e1
      · unfold farDisk
        exact blit_out (by omega)
    rw [hfar] at e
    exact ⟨hfar, e⟩
  · rintro ⟨h1, h2⟩
    rw [h1, h2]

/-- A name that cannot be stored is refused, if and only if `do_touch` has no free inode and writes
nothing new. -/
theorem creation_refused_iff {s : State} (h : WfState s) {c : Creation} (hc : c.Clean)
    (hpass : c.Passes s) :
    ((c.run s).1 = -1 ∧ (c.run s).2.disk = s.disk) ↔ Rewrites s c := by
  cases c with
  | mkdir path =>
    refine iff_of_false (fun hr => ?_) id
    have := h.doMkdir_passed hc hpass
    rw [show (doMkdir s path).1 = -1 from hr.1] at this
    norm_num at this
  | ln src path =>
    refine iff_of_false (fun hr => ?_) id
    have := h.doLn_passed hc.1 hc.2 hpass.1 hpass.2
    rw [show (doLn s src path).1 = -1 from hr.1] at this
    norm_num at this
  | touch path =>
    by_cases hf : InodesFull s.disk
    swap
    · exact iff_of_false (fun hr => h.doTouch_passed hc hpass hf hr.1) fun hu => hf hu.1
    rcases h.doTouch_cases hc with ⟨hn, -⟩ | ⟨hP, t, e⟩
    · exact absurd hpass hn
    obtain ⟨e1, -, d, e2, hcase⟩ := touchFull_cases h hP t hf (lastName path)
    have hres : ((Creation.touch path).run s).1 = -1 := by
      show asInt (doTouch s path).1 = -1
      rw [e, e1]
      decide
    have hdisk : ((Creation.touch path).run s).2.disk = d := by
      show (doTouch s path).2.disk = d
      rw [e, e2]
    rw [hdisk, and_iff_right hres]
    change _ ↔ InodesFull s.disk ∧ _
    rw [and_iff_right hf]
    rcases hcase with ⟨l, j, hfs, rfl⟩ | ⟨hL, rfl⟩ | ⟨hfs, hL, hbad⟩
    · obtain ⟨-, -, hj, -⟩ := firstSlot_some hfs
      rw [hfs]
      exact writeSlot_far h.wf.blk hP.live hj _
    · rw [hL.1]
      exact (and_iff_left hL).symm
    · rw [hfs]
      refine iff_of_false (fun hu => ?_) fun hu => hL hu.2
      rw [hu] at hbad
      exact hbad.elim (fun hb => hb rfl) fun hb => hb.elim (fun hb => hb rfl) fun hb => hb rfl

/-- A name that can be stored is found after a success if and only if its entry had a place. -/
theorem creation_found_iff {s : State} (h : WfState s) {c : Creation} (hc : c.Clean)
    (hpass : c.Passes s) (hx : NameOk (lastName c.path)) (hd : isDir s.disk (parentOf s c.path)) :
    ((c.run s).1 ≠ -1 →
      (findInodeByName (c.run s).2 (parentOf s c.path) (lastName c.path)).1 = c.linked s ∧
        c.linked s ≠ neg1) ↔ Placed s c := by
  cases c with
  | mkdir path =>
    have hres : ((Creation.mkdir path).run s).1 ≠ -1 := by
      show (doMkdir s path).1 ≠ -1
      rw [h.doMkdir_passed hc hpass]
      decide
    rw [forall_prop_of_true hres]
    exact doMkdir_found h hc hx hpass hd
  | ln src path =>
    have hres : ((Creation.ln src path).run s).1 ≠ -1 := by
      show (doLn s src path).1 ≠ -1
      rw [h.doLn_passed hc.1 hc.2 hpass.1 hpass.2]
      decide
    rw [forall_prop_of_true hres]
    exact doLn_found h hc.1 hc.2 hx hpass.1 hpass.2 hd
  | touch path =>
    by_cases hf : InodesFull s.disk
    · refine iff_of_true (fun hr => absurd ?_ hr) (Or.inl hf)
      rcases h.doTouch_cases hc with ⟨hn, -⟩ | ⟨hP, t, e⟩
      · exact absurd hpass hn
      obtain ⟨e1, -⟩ := touchFull_cases h hP t hf (lastName path)
      show asInt (doTouch s path).1 = -1
      rw [e, e1]
      decide
    · rw [forall_prop_of_true (show ((Creation.touch path).run s).1 ≠ -1 from
        h.doTouch_passed hc hpass hf)]
      exact (doTouch_found h hc hx hpass hd hf).trans (or_iff_right hf).symm

/-- A creation refuses the names that cannot be stored and its entry is found after a success, if
and only if the lookups refuse it, or the name can be stored and there is a place for the entry, or
the name cannot be stored and nothing new is written. -/
theorem creation_namesKept_iff {s : State} (h : WfState s) {c : Creation} (hc : c.Clean) :
    NamesKept s c ↔ (c.Passes s → if NameOk (lastName c.path) then
      (isDir s.disk (parentOf s c.path) → Placed s c) else Rewrites s c) := by
  by_cases hpass : c.Passes s
  swap
  · obtain ⟨t, e⟩ := h.creation_refused hc hpass
    refine iff_of_true ⟨fun _ => by rw [e]; exact ⟨rfl, rfl⟩, fun hr => ?_⟩ fun hc => absurd hc hpass
    rw [e] at hr
    exact absurd rfl hr
  rw [forall_prop_of_true hpass]
  by_cases hx : NameOk (lastName c.path)
  · have hiff : NamesKept s c ↔ (isDir s.disk (parentOf s c.path) → (c.run s).1 ≠ -1 → _) :=
      ⟨fun hN hd hr => hN.found hr hd, fun hf => ⟨fun hn => absurd hx hn, fun hr hd => hf hd hr⟩⟩
    rw [if_pos hx, hiff]
    exact forall_congr' fun hd => creation_found_iff h hc hpass hx hd
  · have hiff : NamesKept s c ↔ (c.run s).1 = -1 ∧ (c.run s).2.disk = s.disk :=
      ⟨fun hN => hN.refused hx, fun hr => ⟨fun _ => hr, fun hne => absurd hr.1 hne⟩⟩
    rw [if_neg hx, hiff]
    exact creation_refused_iff h hc hpass

/-- On a new file system, for a new file `a`. -/
theorem creation_namesKept_boot :
    NamesKept (boot.load 0 fun _ => 0#8) (.touch [97#8]) ↔
      ((Creation.touch [97#8]).Passes (boot.load 0 fun _ => 0#8) →
        if NameOk (lastName [97#8]) then
          (isDir (boot.load 0 fun _ => 0#8).disk (parentOf (boot.load 0 fun _ => 0#8) [97#8]) →
            Placed (boot.load 0 fun _ => 0#8) (.touch [97#8]))
        else Rewrites (boot.load 0 fun _ => 0#8) (.touch [97#8])) :=
  creation_namesKept_iff (boot_start.wf.load 0 _) (show 0#8 ∉ _ by decide)

/-- `do_touch` takes a name of 16 bytes, and the name is not found afterwards: the number of the
inode follows it where its end should be. -/
theorem doTouch_long :
    lastName (List.replicate 16 97#8) = List.replicate 16 97#8 ∧
    ((Creation.touch (List.replicate 16 97#8)).run (boot.load 0 fun _ => 0#8)).1 = 1 ∧
    (findInodeByName ((Creation.touch (List.replicate 16 97#8)).run (boot.load 0 fun _ => 0#8)).2 0
      (List.replicate 16 97#8)).1 = neg1 := by
  decide +kernel

end RiscvKernel.Fs
