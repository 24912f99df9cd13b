import RiscvKernel.Fs.Consistency
import RiscvKernel.Fs.Creation

/-!
# Removing directories of any size

`do_rmdir` counts the entries of the direct blocks and frees the direct blocks. It removes a
directory as it should if and only if it refuses it or the directory has no index block
(`doRmdir_exact_iff`): otherwise the index block stays marked, and the entries in the blocks below
it have not been counted.
-/

namespace RiscvKernel.Fs

open Lib Lib.Forest Lib.Run

/-! ## The count -/

/-- The entries in use in the direct blocks, up to the first pointer that is zero. -/
def directLive (d : Mem) (n : ℕ) : ℕ :=
  ∑ l ∈ Finset.range 10, if ∀ i ≤ l, (inode d n).ptr i ≠ 0 then
    (usedSlots (fileBlock d n l)).card else 0

theorem countDentries_eq {s : State} (h : BlkInv s.disk) {n : ℕ} (hn : imap s.disk n = true)
    (h0 : (inode s.disk n).ptr 0 ≠ 0) :
    ∀ r i c t, i + r = 10 → (∀ j < i, (inode s.disk n).ptr j ≠ 0) →
      ∃ t', countDentries (inode s.disk n) i r c (s.put s.disk t) =
        (c + ∑ l ∈ Finset.Ico i 10, if ∀ j ≤ l, (inode s.disk n).ptr j ≠ 0 then
          (usedSlots (fileBlock s.disk n l)).card else 0, s.put s.disk t') := by
  intro r
  induction r with
  | zero =>
    intro i c t hi _
    exact ⟨t, by rw [Finset.Ico_eq_empty (by omega), Finset.sum_empty]; rfl⟩
  | succ r ih =>
    intro i c t hi hj
    have hd : (inode s.disk n).direct i = (inode s.disk n).ptr i := by
      rw [Inode.ptr_direct _ (by omega)]
    rw [countDentries, hd]
    by_cases hz : (inode s.disk n).ptr i = 0
    · have hi0 : i ≠ 0 := by
        rintro rfl
        exact h0 hz
      rw [if_pos ⟨hz, hi0⟩, Finset.sum_eq_zero fun l hl => if_neg fun hc => ?_]
      · exact ⟨t, rfl⟩
      · exact hc i (Finset.mem_Ico.mp hl).1 hz
    · rw [if_neg fun hc => hz hc.1]
      obtain ⟨t1, e1, ht1⟩ := readBlock_fileBlock (s := s.put s.disk t) h hn i
      rw [State.put_disk, pblk_direct _ _ (show i < 10 by omega)] at e1
      simp only [State.put_disk, State.put_put] at e1 ht1
      have hj' : ∀ j ≤ i, (inode s.disk n).ptr j ≠ 0 := fun j hji => by
        rcases Nat.lt_or_eq_of_le hji with h1 | rfl
        · exact hj j h1
        · exact hz
      obtain ⟨t', e2⟩ := ih (i + 1) (c + (usedSlots (fileBlock s.disk n i)).card) t1 (by omega)
        fun j hji => hj' j (by omega)
      simp only [e1, State.put_temp, countBlock_eq, usedSlots_congr ht1]
      refine ⟨t', ?_⟩
      rw [e2, Finset.sum_eq_sum_Ico_succ_bot (show i < 10 by omega), if_pos hj', Nat.add_assoc]

/-- Without index blocks the count is that of all entries. -/
theorem le_directLive {d : Mem} {n : ℕ} (hok : DirOk d n) (h10 : (inode d n).ptr 10 = 0) :
    ∑ l ∈ Finset.Ico 0 (dirBlocks d n), (usedSlots (fileBlock d n l)).card ≤ directLive d n := by
  have hle := dirBlocks_le_ten hok h10
  have hptr : ∀ i < dirBlocks d n, (inode d n).ptr i ≠ 0 := fun i hi => by
    rw [← pblk_direct _ _ (by omega)]
    exact hok.full i hi
  unfold directLive
  refine le_trans (le_of_eq (Finset.sum_congr rfl fun l hl => ?_)) (Finset.sum_le_sum_of_subset
    (s := Finset.Ico 0 (dirBlocks d n)) fun l hl => ?_)
  · rw [Finset.mem_Ico] at hl
    rw [if_pos fun i hi => hptr i (by omega)]
  · rw [Finset.mem_Ico] at hl
    exact Finset.mem_range.mpr (by omega)

/-! ## What `do_rmdir` does -/

/-- The direct blocks of an inode. -/
def directOf (d : Mem) (n c : ℕ) : Prop := c ≠ 0 ∧ ∃ i < 10, (inode d n).ptr i = c

section Rmdir

variable {s : State} (h : WfState s) {path : CStr} (h0 : 0#8 ∉ path) {σ : Slot} {n : ℕ}
  (hσ : σ.1 = parentOf s path) (he : ent s.disk σ = some (lastName path, n))
  (hx : lastName path ≠ dot ∧ lastName path ≠ dotdot) (hd : isDir s.disk n)

include h h0 hσ he hx hd

/-- The directory is refused when its direct blocks have more than two entries; otherwise its entry,
its direct blocks and its inode go. -/
theorem doRmdir_run :
    (2 < directLive s.disk n ∧ ∃ t, doRmdir s path = (-1, s.put s.disk t)) ∨
    (directLive s.disk n ≤ 2 ∧ ∃ d t, Freed (directOf s.disk n) (unlinkSlot s.disk σ) d ∧
      doRmdir s path = (0, s.put (putInode (clearBit d imapBase n) σ.1
        ((inode s.disk σ.1).setNlinks ((inode s.disk σ.1).nlinks - 1))) t)) := by
  obtain ⟨p, x, t, e1, -, hx0, -⟩ := h.splitParent h0
  have hxn := splitParent_name s path
  have hpar : parentOf s path = p := by
    unfold parentOf
    rw [e1]
  rw [e1] at hxn
  simp only at hxn
  subst hxn
  rw [hpar] at hσ
  obtain ⟨hpm, hpd⟩ := h.wf.tree.owner_dir he
  change imap s.disk σ.1 = true at hpm
  change isDir s.disk σ.1 at hpd
  rw [hσ] at hpm hpd
  have hp' := imap_lt hpm
  have hnm : imap s.disk n = true := h.wf.tree.target_live he
  have hn' := imap_lt hnm
  have hroot : n ≠ rootInodeNum := by
    rintro rfl
    exact h.wf.tree.root_free ⟨lastName path, he, hx⟩
  have hok := h.wf.dirs n hnm hd
  have hptr0 : (inode s.disk n).ptr 0 ≠ 0 := by
    rw [← pblk_direct _ _ (by omega)]
    exact hok.full 0 hok.pos
  have hdir0 : (inode s.disk n).direct 0 ≠ 0 := by
    rwa [← Inode.ptr_direct _ (by omega)]
  have hnd : (inode s.disk n).type = fdDir := hd
  -- the lookup finds the directory
  rcases (h.put_temp t).findInodeByName hpm hx0 with ⟨τ, m, t2, hτ, hm, e2⟩ | ⟨hno, -⟩
  swap
  · exact absurd he (hno σ n hσ)
  simp only [State.put_disk, State.put_put] at e2 hm
  obtain rfl := h.wf.tree.distinct hm he (show naming.owner τ = naming.owner σ from hτ.trans hσ.symm)
  obtain rfl : m = n := by
    rw [he] at hm
    cases hm
    rfl
  obtain ⟨t3, e3⟩ := countDentries_eq h.wf.blk hnm hptr0 10 0 0 t2 rfl (by omega)
  rw [Nat.zero_add, ← Finset.range_eq_Ico] at e3
  change _ = (directLive s.disk m, _) at e3
  unfold doRmdir
  simp only [e1, e2, if_neg (live_ne_neg1 hnm), if_neg hroot, getInode_eq _ hn', getInode_eq _ hp',
    State.put_disk, if_neg (not_not_intro hnd), directBlockNum, e3]
  by_cases hc2 : directLive s.disk m > 2
  · rw [if_pos hc2]
    exact Or.inl ⟨hc2, t3, rfl⟩
  rw [if_neg hc2]
  obtain ⟨σ', k, t4, hσ', e4, hU⟩ := removeDentry_spec (s := s.put s.disk t3) h.wf.blk hpm hpd
    (h.wf.dirs p hpm hpd) hx0 (inode s.disk p) rfl rfl hσ he
  simp only [State.put_disk, State.put_put] at hσ' e4 hU
  obtain rfl := h.wf.tree.distinct hσ' he (hU.owner.trans hσ.symm)
  obtain ⟨u1, -, u3, -, -⟩ := unlinkSlot_observe h.wf he
  have hs1 : SbOk (s.put (unlinkSlot s.disk σ') t4) := h.sbOk.put (hU.only.sb h.wf.sb) t4
  obtain ⟨d2, t5, e5, hC⟩ := freeDirect_spec hs1
    (show (inode s.disk m).ptr = (inode (unlinkSlot s.disk σ') m).ptr by rw [u3])
  simp only [State.put_disk, State.put_put, u3] at e5 hC
  have hF : Freed (directOf s.disk m) (unlinkSlot s.disk σ') d2 := by
    refine hC.freed (fun c hc => Or.inl hc) ?_
    rintro c ⟨-, i, hi, rfl⟩
    exact h.wf.blk.ref_lt (show Shape s.disk (m, i) [] from
      ⟨hnm, by simp only; omega, by simp, by simp⟩)
  have hpos : 0 < (inode s.disk p).nlinks := by
    have e : (inode s.disk p).nlinks = _ := h.wf.tree.dir_links hpm hpd
    omega
  have hu : u32 ((inode s.disk p).nlinks + neg1) = (inode s.disk p).nlinks - 1 := by
    have := h.wf.links_lt hpm
    simp only [u32, neg1]
    omega
  have hfi := freeInode_put (s := s.put d2 t5) (h.sbOk.put (hF.sb (hU.only.sb h.wf.sb)) t5) hn'
  simp only [State.put_disk, State.put_temp, State.put_put] at hfi
  refine Or.inr ⟨by omega, d2, sbTemp d2 t5, hF, ?_⟩
  simp only [e4, freeDirs_eq hdir0, e5, hfi, hu, hσ, writeInode_eq _ hp', State.put_disk,
    State.put_temp, State.put_put]

end Rmdir

/-! ## Removing exactly an empty directory -/

/-- Directory `n`, which was empty and is named in slot `σ`, is gone: its data and index blocks and
its inode are free, the parent has lost the entry and one link, and the rest is as before. -/
structure Gone (σ : Slot) (n : ℕ) (d d' : Mem) : Prop where
  names : ∀ y, (∃ τ m, τ.1 = n ∧ ent d τ = some (y, m)) ↔ y = dot ∨ y = dotdot
  bmap : ∀ c, bmap d' c = true ↔ Fs.bmap d c = true ∧ ¬ blocksOf d n c
  imap : ∀ m, imap d' m = true ↔ Fs.imap d m = true ∧ m ≠ n
  inode : ∀ m, inode d' m =
    if m = σ.1 then (Fs.inode d m).setNlinks ((Fs.inode d m).nlinks - 1) else Fs.inode d m
  block : ∀ c, ∀ i < 4096, block d' c i =
    if c = pblk d σ.1 σ.2.1 ∧ i = 20 * σ.2.2 then 0#8 else Fs.block d c i
  ent : ∀ τ, τ.1 ≠ n → Fs.ent d' τ = if τ = σ then none else Fs.ent d τ
  sb : SbOn d'

/-- A success removes an empty directory with all it owns, and anything else changes nothing. -/
structure RmdirExact (s : State) (σ : Slot) (n : ℕ) (r : ℤ × State) : Prop where
  done : r.1 = 0 → Gone σ n s.disk r.2.disk
  refused : r.1 ≠ 0 → r.2.disk = s.disk

/-- The names in an empty directory. -/
theorem empty_names {d : Mem} (h : Wf d) {n : ℕ} (hn : imap d n = true) (hd : isDir d n)
    (he : (nameTree d).Empty naming n) (y : CStr) :
    (∃ τ m, τ.1 = n ∧ ent d τ = some (y, m)) ↔ y = dot ∨ y = dotdot := by
  constructor
  · rintro ⟨τ, m, hτ, e⟩
    by_contra hy
    exact he τ m hτ ⟨y, e, not_or.mp hy⟩
  · rintro (rfl | rfl)
    · obtain ⟨τ, hτ, e⟩ := h.tree.dot_entry hn hd
      exact ⟨τ, n, hτ, e⟩
    · obtain ⟨τ, p, hτ, e, -⟩ := h.tree.dotdot_exists hn hd
      exact ⟨τ, p, hτ, e⟩

/-- A directory has an index block. -/
def Indexed (d : Mem) (n : ℕ) : Prop := (inode d n).ptr 10 ≠ 0 ∨ (inode d n).ptr 11 ≠ 0

section Gone

variable {d : Mem} (h : Wf d) {σ : Slot} {x : CStr} {n : ℕ} (he : ent d σ = some (x, n))

include h he

/-- Without index blocks the direct blocks are all there is. -/
theorem directOf_iff (hx : ¬ Indexed d n) (c : ℕ) : directOf d n c ↔ blocksOf d n c := by
  have hnm : imap d n = true := h.tree.target_live he
  unfold Indexed at hx
  rw [not_or, not_not, not_not] at hx
  have hE := RmExact.of_direct hnm hx.1 hx.2
  constructor
  · rintro ⟨hc, i, hi, e⟩
    exact ⟨hc, i, [], ⟨hnm, by simp only; omega, by simp, by simp⟩, e⟩
  · intro hc
    rcases hE.all c hc with (⟨hc0, hi⟩ | ⟨hne, -⟩) | ⟨hne, -⟩
    · exact ⟨hc0, hi⟩
    · exact absurd hx.1 hne
    · exact absurd hx.2 hne

/-- An index block is not among the blocks that `do_rmdir` frees. -/
theorem exists_kept (hx : Indexed d n) : ∃ c, blocksOf d n c ∧ ¬ directOf d n c ∧ bmap d c = true := by
  have hnm : imap d n = true := h.tree.target_live he
  have key : ∀ k, 10 ≤ k → k < 12 → (inode d n).ptr k ≠ 0 →
      ∃ c, blocksOf d n c ∧ ¬ directOf d n c ∧ bmap d c = true := by
    intro k hk1 hk2 hk
    have hs : Shape d (n, k) [] := ⟨hnm, hk2, by simp, by simp⟩
    refine ⟨(inode d n).ptr k, ⟨hk, k, [], hs, rfl⟩, ?_, h.blk.owned.used_ref hs⟩
    rintro ⟨-, i, hi, e⟩
    have hsi : Shape d (n, i) [] := ⟨hnm, by simp only; omega, by simp, by simp⟩
    have hinj := (h.blk.owned.inj hs hsi e.symm hk).1
    have : k = i := congrArg Prod.snd hinj
    omega
  rcases hx with hx | hx
  · exact key 10 le_rfl (by omega) hx
  · exact key 11 (by omega) (by omega) hx

end Gone

/-- When only the direct blocks have been freed, a directory with an index block is not gone. -/
theorem Indexed.not_gone {d d2 : Mem} (h : Wf d) {σ : Slot} {x : CStr} {n : ℕ}
    (he : ent d σ = some (x, n)) (hI : Indexed d n)
    (hF : Freed (directOf d n) (unlinkSlot d σ) d2) (y : Inode) :
    ¬ Gone σ n d (putInode (clearBit d2 imapBase n) σ.1 y) := by
  intro hG
  obtain ⟨-, u2, -, -, -⟩ := unlinkSlot_observe h he
  have hn' : n < 4096 := imap_lt (h.tree.target_live he)
  obtain ⟨c, hb, hnd, hm⟩ := exists_kept h he hI
  have hc := hG.bmap c
  rw [bmap_putInode, bmap_clearImap _ hn', hF.bmap, u2] at hc
  exact (hc.mp ⟨hm, hnd⟩).2 hb

section Exact

variable {s : State} (h : WfState s) {path : CStr} (h0 : 0#8 ∉ path) {σ : Slot} {n : ℕ}
  (hσ : σ.1 = parentOf s path) (he : ent s.disk σ = some (lastName path, n))
  (hx : lastName path ≠ dot ∧ lastName path ≠ dotdot) (hd : isDir s.disk n)

include h h0 hσ he hx hd

/-- `do_rmdir` of a directory by its name in its parent does what it should if and only if it counts
more than two entries in the direct blocks, or the directory has no index block. -/
theorem doRmdir_exact_iff : RmdirExact s σ n (doRmdir s path) ↔
    ¬ (directLive s.disk n ≤ 2 ∧ Indexed s.disk n) := by
  have hnm : imap s.disk n = true := h.wf.tree.target_live he
  have hn' := imap_lt hnm
  obtain ⟨u1, u2, u3, u4, u5⟩ := unlinkSlot_observe h.wf he
  rcases doRmdir_run h h0 hσ he hx hd with ⟨hc, t, e⟩ | ⟨hc, d, t, hF, e⟩
  · rw [e]
    refine iff_of_true ⟨fun hr => ?_, fun _ => rfl⟩ fun hc' => by omega
    norm_num at hr
  rw [e, and_iff_right hc]
  constructor
  · -- the index block is still marked
    intro hR hI
    exact hI.not_gone h.wf he hF _ (hR.done rfl)
  · intro hI
    have hp10 : (inode s.disk n).ptr 10 = 0 := not_not.mp (not_or.mp hI).1
    have hemp := empty_of_count h.wf hnm hd ((le_directLive (h.wf.dirs n hnm hd) hp10).trans hc)
    refine ⟨fun _ => ?_, fun hr => absurd rfl hr⟩
    obtain ⟨hpm, hpd, hl, hj⟩ := ent_some he
    have hU : Unlinked σ.1 σ s.disk (unlinkSlot s.disk σ) :=
      unlinked_unlinkSlot h.wf.blk hpm hpd (h.wf.dirs _ hpm hpd) hl hj
    have hF' : Freed (blocksOf (unlinkSlot s.disk σ) n) (unlinkSlot s.disk σ) d :=
      hF.congr fun c _ => by rw [unlinked_blocksOf h.wf he, directOf_iff h.wf he hI]
    obtain ⟨hw, -, ⟨τ, hτ, -, htree⟩, hmark, -⟩ := removedDir_of h.wf he hx hd hemp hU hF'
    obtain rfl := h.wf.tree.held_once hτ ⟨lastName path, he, hx⟩ hd
    obtain ⟨c1, c2, -⟩ := observe_clearImap d hn'
    refine ⟨empty_names h.wf hnm hd hemp, fun c => ?_, hmark, fun m => ?_, fun c i hi => ?_,
      fun ρ hρ => ?_, hw.sb⟩
    · rw [State.put_disk, bmap_putInode, bmap_clearImap _ hn', hF.bmap, u2, directOf_iff h.wf he hI]
    · rw [State.put_disk]
      split_ifs with hm
      · rw [hm, inode_putInode_self _ _ (imap_lt hpm)]
      · rw [inode_putInode_of_ne _ _ hm, c1, hF.inode, u3]
    · rw [State.put_disk, block_putInode _ _ (imap_lt hpm), c2, hF.block]
      by_cases hc : c = pblk s.disk τ.1 τ.2.1
      · rw [hc, u5 i hi]
        exact if_congr (and_iff_right rfl).symm rfl rfl
      · rw [u4 c hc, if_neg fun hc' => hc hc'.1]
    · have hent := congrFun (congrArg NameTree.ent htree) ρ
      change ent _ ρ = if ρ = τ ∨ ρ.1 = n then none else ent s.disk ρ at hent
      rw [State.put_disk, hent]
      exact if_congr (or_iff_left hρ) rfl rfl

end Exact

/-! ## A directory with an index block -/

/-- The two states have the same names; directory `n` is `k` blocks longer in the second one. -/
structure Longer (n k : ℕ) (s s' : State) : Prop where
  wf : WfState s'
  cwd : s'.dirInode = s.dirInode
  tree : nameTree s'.disk = nameTree s.disk
  blocks : dirBlocks s'.disk n = dirBlocks s.disk n + k
  room : freeCount s.disk ≤ freeCount s'.disk + 3 * k

/-- A directory can have an empty block more. The block is added with an entry, which is removed
again. -/
theorem exists_longer_one {s : State} (h : WfState s) {n : ℕ} (hn : imap s.disk n = true)
    (hd : isDir s.disk n) (hroom : 3 ≤ freeCount s.disk) : ∃ s', Longer n 1 s s' := by
  have hok := h.wf.dirs n hn hd
  have hr := h.wf.readable hn hd
  have hle := hr.le
  generalize hk : dirBlocks s.disk n = k at hle
  have hkm : k < maxBlocks := by
    unfold maxBlocks
    omega
  have hneed := need_le s.disk n k
  obtain ⟨d, t, node, -, hG, hb, hN, -, hcount⟩ := getPhysicalBlockId_room h.sbOk h.wf.blk hn
    (Eq.refl (inode s.disk n).ptr) hkm (hneed.trans hroom)
  have hdm := dentryAt_mkDentry (fun _ => 0#8) (x := [97#8]) (by decide) (by decide) (by decide)
    (show 0 < 2 ^ 32 by norm_num)
  have hz : ∀ i, 20 ≤ i → i < 4096 → mkDentry (fun _ => 0#8) [97#8] 0 i = 0#8 := by
    intro i h1 h2
    unfold mkDentry putWord
    rw [putLe_out (Or.inr (by simp only [maxFnameLen]; omega)), strcpy_out (Or.inr (by
      simp only [List.length_cons, List.length_nil]; omega))]
  subst hk
  have hL := linked_grow h.wf.blk hn hd hok (e := ([97#8], 0)) (by decide) hG hb hdm hz
    (y := node.setSize (4096 * (dirBlocks s.disk n + 1))) (by rw [Inode.ptr_setSize, hN.ptr])
    (by rw [Inode.type_setSize, hN.sameMeta.type]; exact hd)
    (by rw [Inode.size_setSize, u32_of_lt (by omega)])
  generalize mkDentry (fun _ => 0#8) [97#8] 0 = u at hL hdm hz
  have hi : inode (putInode (putBlock d (pblk d n (dirBlocks s.disk n)) u 0) n
      (node.setSize (4096 * (dirBlocks s.disk n + 1)))) n =
        node.setSize (4096 * (dirBlocks s.disk n + 1)) :=
    inode_putInode_self _ _ (imap_lt hn)
  have hfree : freeCount (putInode (putBlock d (pblk d n (dirBlocks s.disk n)) u 0) n
      (node.setSize (4096 * (dirBlocks s.disk n + 1)))) = freeCount d := by
    rw [freeCount_putInode, freeCount_putBlock]
  generalize putInode (putBlock d (pblk d n (dirBlocks s.disk n)) u 0) n
    (node.setSize (4096 * (dirBlocks s.disk n + 1))) = d1 at hL hi hfree
  -- the entry goes again
  have hmeta : ∀ m, (inode d1 m).type = (inode s.disk m).type ∧
      (inode d1 m).nlinks = (inode s.disk m).nlinks := fun m => by
    by_cases hm : m = n
    · rw [hm, hi, Inode.type_setSize, Inode.nlinks_setSize, hN.sameMeta.type, hN.sameMeta.nlinks]
      exact ⟨rfl, rfl⟩
    · rw [hL.only.inode_ne m hm]
      exact ⟨rfl, rfl⟩
  have hn1 : imap d1 n = true := (hL.only.imap n).trans hn
  have hd1 : isDir d1 n := (hmeta n).1.trans hd
  have hdb : dirBlocks d1 n = dirBlocks s.disk n + 1 := by
    unfold dirBlocks
    rw [hi, Inode.size_setSize, u32_of_lt (by unfold dirBlocks at hle ⊢; omega)]
    unfold dirBlocks
    omega
  have hU := unlinked_unlinkSlot hL.only.inv hn1 hd1 hL.ok (l := dirBlocks s.disk n) (j := 0)
    (by omega) (by omega)
  obtain ⟨o1, o2, o3, -, -⟩ := observe_unlinkSlot (d := d1) (p := n) (l := dirBlocks s.disk n)
    (j := 0) (by omega)
  have hO := hL.only.trans hU.only
  have hent : ent (unlinkSlot d1 (n, dirBlocks s.disk n, 0)) = ent s.disk := by
    rw [hU.ent, hL.ent, Function.update_idem, Function.update_eq_self_iff]
    exact hL.free.symm
  have hfree2 : freeCount (unlinkSlot d1 (n, dirBlocks s.disk n, 0)) = freeCount d :=
    (freeCount_congr o2).trans hfree
  have hdb2 : dirBlocks (unlinkSlot d1 (n, dirBlocks s.disk n, 0)) n = dirBlocks s.disk n + 1 :=
    (congrArg (fun x => x.size / 4096) (o3 n)).trans hdb
  have hdirs := hU.ok
  have hmeta2 : ∀ m, (inode (unlinkSlot d1 (n, dirBlocks s.disk n, 0)) m).type =
      (inode s.disk m).type ∧ (inode (unlinkSlot d1 (n, dirBlocks s.disk n, 0)) m).nlinks =
        (inode s.disk m).nlinks := fun m => by
    rw [o3]
    exact hmeta m
  generalize unlinkSlot d1 (n, dirBlocks s.disk n, 0) = d2 at *
  have hdir2 : ∀ m, isDir d2 m ↔ isDir s.disk m := fun m => by
    unfold isDir
    rw [(hmeta2 m).1]
  have htree : nameTree d2 = nameTree s.disk := by
    apply NameTree.ext
    · funext m
      show (imap d2 m = true) = (imap s.disk m = true)
      rw [hO.imap]
    · funext m
      exact propext (hdir2 m)
    · funext m
      exact (hmeta2 m).2
    · exact hent
  refine ⟨s.put d2 s.temp, ⟨⟨h.valid, h.sb, ⟨hO.sb h.wf.sb, hO.inv, fun q hq hqd => ?_,
    fun q hq hqd => ?_, by rw [State.put_disk, htree]; exact h.wf.tree⟩, ?_⟩, rfl, htree, hdb2, ?_⟩⟩
  · rw [State.put_disk, hO.imap] at hq
    by_cases e : q = n
    · rw [e]
      exact hdirs
    · exact hO.dirOk_ne e hq (h.wf.dirs q hq ((hdir2 q).mp hqd))
  · rw [State.put_disk, hO.imap] at hq
    rw [State.put_disk, hdir2] at hqd
    have hqn : q ≠ n := by
      rintro rfl
      exact hqd hd
    rw [State.put_disk, hO.inode_ne q hqn]
    exact h.wf.sizes q hq hqd
  · rw [State.put_disk, hO.imap, hdir2]
    exact h.cwd
  · rw [State.put_disk, hfree2]
    omega

/-- A directory can be as long as the free blocks allow. -/
theorem exists_longer {s : State} (h : WfState s) {n : ℕ} (hn : imap s.disk n = true)
    (hd : isDir s.disk n) (k : ℕ) (hroom : 3 * k ≤ freeCount s.disk) : ∃ s', Longer n k s s' := by
  induction k with
  | zero => exact ⟨s, h, rfl, rfl, rfl, by omega⟩
  | succ k ih =>
    obtain ⟨s1, h1⟩ := ih (by omega)
    have hroom1 := h1.room
    have en : (imap s1.disk n = true) = (imap s.disk n = true) :=
      congrFun (congrArg NameTree.live h1.tree) n
    have ed : isDir s1.disk n = isDir s.disk n := congrFun (congrArg NameTree.dir h1.tree) n
    have hn1 : imap s1.disk n = true := en.mpr hn
    have hd1 : isDir s1.disk n := ed.mpr hd
    obtain ⟨s2, h2⟩ := exists_longer_one h1.wf hn1 hd1 (by omega)
    have hroom2 := h2.room
    exact ⟨s2, h2.wf, h2.cwd.trans h1.cwd, h2.tree.trans h1.tree,
      by rw [h2.blocks, h1.blocks, Nat.add_assoc], by omega⟩

/-- The entries of an empty directory are two. -/
theorem directLive_le {d : Mem} (h : Wf d) {n : ℕ} (hn : imap d n = true) (hd : isDir d n)
    (he : (nameTree d).Empty naming n) (hl : 10 ≤ dirBlocks d n) : directLive d n ≤ 2 := by
  have hent : ∀ l < 10, ∀ j ∈ usedSlots (fileBlock d n l), ∃ e, ent d (n, l, j) = some e ∧
      (e.1 = dot ∨ e.1 = dotdot) := by
    intro l hlt j hj
    rw [usedSlots, Finset.mem_filter, Finset.mem_range] at hj
    have e : ent d (n, l, j) = dentryAt (fileBlock d n l) (20 * j) := ent_of hn hd (by omega) hj.1
    rw [dentryAt, if_neg hj.2] at e
    refine ⟨_, e, ?_⟩
    exact (empty_names h hn hd he _).mp ⟨(n, l, j), _, rfl, e⟩
  have hcard : ((Finset.range 10).sigma fun l => usedSlots (fileBlock d n l)).card ≤
      ({dot, dotdot} : Finset CStr).card := by
    refine Finset.card_le_card_of_injOn
      (fun a => ((ent d (n, a.1, a.2)).map Prod.fst).getD []) (fun a ha => ?_) ?_
    · rw [Finset.mem_coe, Finset.mem_sigma, Finset.mem_range] at ha
      obtain ⟨e, h1, h2⟩ := hent a.1 ha.1 a.2 ha.2
      simp only [h1, Option.map_some, Option.getD_some, Finset.coe_insert,
        Finset.coe_singleton, Set.mem_insert_iff, Set.mem_singleton_iff]
      exact h2
    · rintro ⟨l, j⟩ ha ⟨l', j'⟩ ha' hab
      rw [Finset.mem_coe, Finset.mem_sigma, Finset.mem_range] at ha ha'
      obtain ⟨⟨y, m⟩, h1, -⟩ := hent l ha.1 j ha.2
      obtain ⟨⟨y', m'⟩, h2, -⟩ := hent l' ha'.1 j' ha'.2
      simp only [h1, h2, Option.map_some, Option.getD_some] at hab
      subst hab
      have hslot : ((n, l, j) : Slot) = (n, l', j') := h.tree.distinct h1 h2 rfl
      cases hslot
      rfl
  refine le_trans ?_ (hcard.trans (Finset.card_le_two))
  rw [Finset.card_sigma]
  exact Finset.sum_le_sum fun l _ => by split_ifs <;> omega

/-- A run on a new file system that makes a directory. -/
def dirRun : List Call := [.fs 0 (fun _ => 0#8) (.mkdir [97#8])]

theorem dirRun_valid : Valid Sys.step (fun y c => c.Ok y ∧ c.Grows) boot dirRun := by
  decide +kernel

/-- After `dirRun`, for the directory. -/
theorem doRmdir_exact_dirRun :
    (RmdirExact (stateAfter dirRun) (0, 0, 2) 1 (doRmdir (stateAfter dirRun) [97#8]) ↔
      ¬ (directLive (stateAfter dirRun).disk 1 ≤ 2 ∧ Indexed (stateAfter dirRun).disk 1)) :=
  doRmdir_exact_iff (stateAfter_wf dirRun_valid) (by decide) (by decide +kernel)
    (by decide +kernel) (by decide) (by decide +kernel)

/-- An empty directory of eleven blocks is removed, and its index block stays marked. -/
theorem doRmdir_eleven : ∃ s : State, WfState s ∧ 0#8 ∉ [97#8] ∧
    (((0, 0, 2) : Slot).1 = parentOf s [97#8] ∧
      ent s.disk (0, 0, 2) = some (lastName [97#8], 1)) ∧
    isDir s.disk 1 ∧ dirBlocks s.disk 1 = 11 ∧ (doRmdir s [97#8]).1 = 0 ∧
    ¬ RmdirExact s (0, 0, 2) 1 (doRmdir s [97#8]) := by
  have hw := stateAfter_wf dirRun_valid
  have hn : imap (stateAfter dirRun).disk 1 = true := by decide +kernel
  have hd : isDir (stateAfter dirRun).disk 1 := by decide +kernel
  have hfree : 3 * 10 ≤ freeCount (stateAfter dirRun).disk := by
    have hbits : ∀ b ∈ Finset.Ico 100 130, bmap (stateAfter dirRun).disk b = false := by decide +kernel
    have hsub : Finset.Ico 100 130 ⊆ (Finset.range fsBlockNum).filter fun b =>
        bmap (stateAfter dirRun).disk b = false := fun b hb => by
      have hlt : b < fsBlockNum := (Finset.mem_Ico.1 hb).2.trans (by decide)
      exact Finset.mem_filter.2 ⟨Finset.mem_range.2 hlt, hbits b hb⟩
    exact Finset.card_le_card hsub
  obtain ⟨s, hL⟩ := exists_longer hw hn hd 10 hfree
  have hent : ent s.disk = ent (stateAfter dirRun).disk := congrArg NameTree.ent hL.tree
  have hdir : isDir s.disk = isDir (stateAfter dirRun).disk := congrArg NameTree.dir hL.tree
  have hlive : (fun m => imap s.disk m = true) = fun m => imap (stateAfter dirRun).disk m = true :=
    congrArg NameTree.live hL.tree
  have hn1 : imap s.disk 1 = true := (congrFun hlive 1).mpr hn
  have hd1 : isDir s.disk 1 := by
    rw [hdir]
    exact hd
  have hb : dirBlocks s.disk 1 = 11 := by
    rw [hL.blocks]
    decide +kernel
  have he : ent s.disk (0, 0, 2) = some (lastName [97#8], 1) := by
    rw [hent]
    decide +kernel
  have hp : ((0, 0, 2) : Slot).1 = parentOf s [97#8] := by
    have e : parentOf s [97#8] = s.dirInode := rfl
    rw [e, hL.cwd]
    decide +kernel
  have hI : Indexed s.disk 1 := by
    refine Or.inl fun h10 => ?_
    have := dirBlocks_le_ten (hL.wf.wf.dirs 1 hn1 hd1) h10
    omega
  have hemp : (nameTree s.disk).Empty naming 1 := by
    rw [hL.tree]
    refine empty_of_count hw.wf hn hd ?_
    decide +kernel
  refine ⟨s, hL.wf, by decide, ⟨hp, he⟩, hd1, hb, ?_⟩
  have hlt := directLive_le hL.wf.wf hn1 hd1 hemp (by omega)
  rcases doRmdir_run hL.wf (by decide) hp he (by decide) hd1 with ⟨hc, -⟩ | ⟨-, d, t, hF, e⟩
  · omega
  · rw [e]
    exact ⟨rfl, fun hR => hI.not_gone hL.wf.wf he hF _ (hR.done rfl)⟩

end RiscvKernel.Fs
