import RiscvKernel.Fs.Delete

/-!
# Removing directories

`do_rmdir` on a well-formed state. Its emptiness check counts the entries in the direct blocks; for a
directory without index blocks these are all its entries, and a directory with at most two entries
has nothing but its two dots.
-/

namespace RiscvKernel.Fs

open Lib Lib.Forest

/-! ## The emptiness check -/

/-- The positions in use in a directory block. -/
def usedSlots (m : Mem) : Finset ℕ := (Finset.range 204).filter fun j => m (20 * j) ≠ 0#8

theorem usedSlots_congr {m m' : Mem} (h : ∀ i < 4096, m i = m' i) : usedSlots m = usedSlots m' :=
  Finset.filter_congr fun j hj => by
    rw [Finset.mem_range] at hj
    rw [h _ (by omega)]

theorem countBlock_eq (m : Mem) : countBlock m = (usedSlots m).card := by
  have h := loop_inv (P := fun i c => c = ((Finset.range i).filter fun j => m (20 * j) ≠ 0#8).card)
    (f := fun j c => if m (20 * j) ≠ 0#8 then c + 1 else c) (i := 0) (n := 204) (s := 0) ?_ ?_
  · exact h
  · rintro i _ - - rfl
    rw [Finset.range_add_one, Finset.filter_insert]
    split_ifs with hi
    · rw [Finset.card_insert_of_notMem (by simp)]
    · rfl
  · rfl

/-- The count is at least the number of entries in the first `k` blocks. -/
theorem countDentries_spec {s : State} (h : BlkInv s.disk) {n : ℕ} (hn : imap s.disk n = true)
    {k : ℕ} (hk : k ≤ 10) (hfull : ∀ l < k, pblk s.disk n l ≠ 0) :
    ∀ r i c t, i + r = 10 →
      ∃ c' t', countDentries (inode s.disk n) i r c (s.put s.disk t) = (c', s.put s.disk t') ∧
        c + ∑ l ∈ Finset.Ico i k, (usedSlots (fileBlock s.disk n l)).card ≤ c' := by
  intro r
  induction r with
  | zero =>
    intro i c t hi
    exact ⟨c, t, rfl, by rw [Finset.Ico_eq_empty (by omega), Finset.sum_empty, Nat.add_zero]⟩
  | succ r ih =>
    intro i c t hi
    have hd : (inode s.disk n).direct i = pblk s.disk n i := by
      rw [pblk_direct _ _ (by omega), Inode.ptr_direct _ (by omega)]
    rw [countDentries, hd]
    by_cases hz : pblk s.disk n i = 0 ∧ i ≠ 0
    · have hik : k ≤ i := by
        by_contra hlt
        exact hfull i (by omega) hz.1
      rw [if_pos hz]
      exact ⟨c, t, rfl, by rw [Finset.Ico_eq_empty (by omega), Finset.sum_empty, Nat.add_zero]⟩
    · rw [if_neg hz]
      obtain ⟨t1, e1, ht1⟩ := readBlock_fileBlock (s := s.put s.disk t) h hn i
      simp only [State.put_disk, State.put_put] at e1 ht1
      simp only [e1, State.put_temp, countBlock_eq, usedSlots_congr ht1]
      obtain ⟨c', t', e2, h2⟩ := ih (i + 1)
        (c + (usedSlots (fileBlock s.disk n i)).card) t1 (by omega)
      refine ⟨c', t', e2, le_trans ?_ h2⟩
      by_cases hik : i < k
      · rw [Finset.sum_eq_sum_Ico_succ_bot hik]
        omega
      · rw [Finset.Ico_eq_empty (by omega), Finset.sum_empty]
        omega

/-- A directory whose first `dirBlocks` blocks have at most two entries in use is empty. -/
theorem empty_of_count {d : Mem} (h : Wf d) {n : ℕ} (hn : imap d n = true) (hd : isDir d n)
    (hc : ∑ l ∈ Finset.Ico 0 (dirBlocks d n), (usedSlots (fileBlock d n l)).card ≤ 2) :
    (nameTree d).Empty naming n := by
  rintro σ m rfl ⟨x, hσ, hx1, hx2⟩
  change imap d σ.1 = true at hn
  change isDir d σ.1 at hd
  change ∑ l ∈ Finset.Ico 0 (dirBlocks d σ.1), (usedSlots (fileBlock d σ.1 l)).card ≤ 2 at hc
  change ent d σ = some (x, m) at hσ
  obtain ⟨σ₁, ho₁, h₁⟩ := h.tree.dot_entry hn hd
  obtain ⟨σ₂, p, ho₂, h₂, -⟩ := h.tree.dotdot_exists hn hd
  change σ₁.1 = σ.1 at ho₁
  change σ₂.1 = σ.1 at ho₂
  change ent d σ₁ = _ at h₁
  change ent d σ₂ = _ at h₂
  -- the three entries are three slots in use
  have hmem : ∀ {τ : Slot} {e}, τ.1 = σ.1 → ent d τ = some e → (⟨τ.2.1, τ.2.2⟩ : Σ _ : ℕ, ℕ) ∈
      (Finset.Ico 0 (dirBlocks d σ.1)).sigma fun l => usedSlots (fileBlock d σ.1 l) := by
    rintro ⟨q, l, j⟩ e hq he
    obtain rfl : q = σ.1 := hq
    obtain ⟨-, -, hl, hj⟩ := ent_some he
    simp only at hl hj
    rw [ent_of hn hd hl hj, dentryAt] at he
    split_ifs at he with hz
    rw [Finset.mem_sigma, Finset.mem_Ico, usedSlots, Finset.mem_filter, Finset.mem_range]
    exact ⟨⟨Nat.zero_le _, hl⟩, hj, hz⟩
  have hne : ∀ {τ τ' : Slot} {y y' : CStr} {k k' : ℕ}, τ.1 = σ.1 → τ'.1 = σ.1 →
      ent d τ = some (y, k) → ent d τ' = some (y', k') → y ≠ y' →
      (⟨τ.2.1, τ.2.2⟩ : Σ _ : ℕ, ℕ) ≠ ⟨τ'.2.1, τ'.2.2⟩ := by
    rintro ⟨q, l, j⟩ ⟨q', l', j'⟩ y y' k k' hq hq' he he' hy e
    simp only at hq hq' e
    cases e
    rw [hq] at he
    rw [hq', he] at he'
    cases he'
    exact hy rfl
  have h3 := Finset.two_lt_card.mpr ⟨_, hmem rfl hσ, _, hmem ho₁ h₁, _, hmem ho₂ h₂,
    hne rfl ho₁ hσ h₁ hx1, hne rfl ho₂ hσ h₂ hx2, hne ho₁ ho₂ h₁ h₂ naming.ne⟩
  rw [Finset.card_sigma] at h3
  omega

/-! ## `do_rmdir` -/

/-- What `do_rmdir` does to a well-formed disk when it succeeds. -/
structure RemovedDir (d d' : Mem) (n : ℕ) : Prop where
  wf : Wf d'
  dir : isDir d n
  tree : ∃ σ, (nameTree d).Proper naming σ n ∧ (nameTree d).Empty naming n ∧
    nameTree d' = (nameTree d).removeDir naming σ n
  imap : ∀ m, imap d' m = true ↔ Fs.imap d m = true ∧ m ≠ n
  files : ∀ m, Fs.imap d m = true → ¬ isDir d m → SameFile m d d'

/-- The disk after `do_rmdir` has removed the entry in slot `σ` and freed the directory's blocks:
the inode is unmarked and the parent has a link less. -/
theorem removedDir_of {d d2 : Mem} (h : Wf d) {σ : Slot} {x : CStr} {n : ℕ}
    (hσ : ent d σ = some (x, n)) (hx : x ≠ dot ∧ x ≠ dotdot) (hd : isDir d n)
    (he : (nameTree d).Empty naming n) (hU : Unlinked σ.1 σ d (unlinkSlot d σ))
    (hF : Freed (blocksOf (unlinkSlot d σ) n) (unlinkSlot d σ) d2) :
    RemovedDir d (putInode (clearBit d2 imapBase n) σ.1
      ((inode d σ.1).setNlinks ((inode d σ.1).nlinks - 1))) n := by
  have hP : (nameTree d).Proper naming σ n := ⟨x, hσ, hx⟩
  obtain ⟨o1, o2, o3, o4, o5⟩ := unlinkSlot_observe h hσ
  obtain ⟨hpm, hpd⟩ := h.tree.owner_dir hσ
  change Fs.imap d σ.1 = true at hpm
  change isDir d σ.1 at hpd
  have hnm : Fs.imap d n = true := h.tree.target_live hσ
  have hn' := imap_lt hnm
  have hp' := imap_lt hpm
  have hpn : σ.1 ≠ n := fun e => he σ n e hP
  obtain ⟨c1, c2, c3⟩ := observe_clearImap d2 hn'
  -- first the inode and its blocks are dropped
  obtain ⟨hinv, hpb, hfb⟩ := blkInv_drop (clearBit d2 imapBase n) hU.only.inv (f := n)
    (fun m => by rw [imap_clear_iff, hF.imap]) (fun c => by rw [bmap_clearImap _ hn', hF.bmap])
    (fun m => by rw [c1, hF.inode]) (fun c => by rw [c2, hF.block])
  have hi3 : ∀ m, inode (clearBit d2 imapBase n) m = inode d m := fun m => by
    rw [c1, hF.inode, o3]
  have hm3 : ∀ m, Fs.imap (clearBit d2 imapBase n) m = true ↔ Fs.imap d m = true ∧ m ≠ n :=
    fun m => by rw [imap_clear_iff, hF.imap, o1]
  have hsb3 := c3 (hF.sb (hU.only.sb h.sb))
  generalize clearBit d2 imapBase n = d3 at *
  have hent3 : ∀ τ : Slot, ent d3 τ = if τ = σ ∨ τ.1 = n then none else ent d τ := by
    intro τ
    by_cases e : τ.1 = n
    · rw [if_pos (Or.inr e)]
      exact ent_of_unmarked (by
        rw [← Bool.not_eq_true, hm3, e]
        simp)
    · have hm : Fs.imap d3 τ.1 = Fs.imap (unlinkSlot d σ) τ.1 := by
        rw [Bool.eq_iff_iff, hm3, o1]
        exact and_iff_left e
      rw [ent_congr (d := unlinkSlot d σ) hm (by rw [hi3, o3]) fun _ => hfb _ _, hU.ent,
        Function.update_apply]
      exact if_congr (by simp [e]) rfl rfl
  have hpm3 : Fs.imap d3 σ.1 = true := (hm3 _).mpr ⟨hpm, hpn⟩
  -- then the parent's inode is written back
  have hx1 : ((inode d σ.1).setNlinks ((inode d σ.1).nlinks - 1)).ptr = (inode d3 σ.1).ptr := by
    rw [Inode.ptr_setNlinks, hi3]
  have hO := only_putMeta hinv hpm3 hx1
  have hself := inode_putInode_self d3 ((inode d σ.1).setNlinks ((inode d σ.1).nlinks - 1)) hp'
  have hent := ent_putMeta hpm3 hx1 (by rw [Inode.type_setNlinks, hi3])
    (by rw [Inode.size_setNlinks, hi3])
  have hpb4 := fun l => pblk_putMeta hpm3 hx1 hpm3 l
  generalize putInode d3 σ.1 ((inode d σ.1).setNlinks ((inode d σ.1).nlinks - 1)) = d' at *
  have hlink := h.links_lt hpm
  have hty : ∀ m, (inode d' m).type = (inode d m).type := fun m => by
    by_cases e : m = σ.1
    · rw [e, hself, Inode.type_setNlinks]
    · rw [hO.inode_ne m e, hi3]
  have hmark : ∀ m, Fs.imap d' m = true ↔ Fs.imap d m = true ∧ m ≠ n := fun m => by
    rw [hO.imap, hm3]
  have htree : nameTree d' = (nameTree d).removeDir naming σ n := by
    apply NameTree.ext
    · funext m
      exact propext (hmark m)
    · funext m
      show isDir d' m = isDir d m
      unfold isDir
      rw [hty]
    · funext m
      show (inode d' m).nlinks = Function.update (fun k => (inode d k).nlinks) σ.1
        ((inode d σ.1).nlinks - 1) m
      rw [Function.update_apply]
      split_ifs with e
      · rw [e, hself, Inode.nlinks_setNlinks, u32_of_lt (by omega)]
      · rw [hO.inode_ne m e, hi3]
    · funext τ
      show ent d' τ = if τ = σ ∨ τ.1 = n then none else ent d τ
      rw [hent, hent3]
  have hfile : ∀ m, Fs.imap d m = true → ¬ isDir d m → SameFile m d d' := by
    intro m hm hmd
    have hmp : m ≠ σ.1 := by
      rintro rfl
      exact hmd hpd
    have hmn : m ≠ n := by
      rintro rfl
      exact hmd hd
    exact ((hU.only.sameFile hmp hm).trans ⟨by rw [hi3, o3], by rw [hi3, o3], hpb m, hfb m⟩).trans
      (hO.sameFile hmp ((hm3 m).mpr ⟨hm, hmn⟩))
  refine ⟨⟨hO.sb hsb3, hO.inv, fun q hq hqd => ?_, fun m hm hmd => ?_, ?_⟩, hd,
    ⟨σ, hP, he, htree⟩, hmark, hfile⟩
  · unfold isDir at hqd
    rw [hty] at hqd
    obtain ⟨hq1, hqn⟩ := (hmark q).mp hq
    have hok1 : DirOk (unlinkSlot d σ) q := by
      by_cases e : q = σ.1
      · rw [e]
        exact hU.ok
      · exact hU.only.dirOk_ne e hq1 (h.dirs q hq1 hqd)
    have hok3 : DirOk d3 q := dirOk_congr (by rw [hi3, o3]) (hpb q) (fun τ hτ => by
      rw [hent3, hU.ent, Function.update_apply]
      exact if_congr (by simp [hτ, hqn]) rfl rfl) hok1
    by_cases e : q = σ.1
    · subst e
      have hsz : (inode d' σ.1).size = (inode d3 σ.1).size := by
        rw [hself, Inode.size_setNlinks, hi3]
      refine ⟨?_, ?_, fun l hl => ?_, fun τ y k hτ hy => ?_⟩
      · unfold dirBlocks; rw [hsz]; exact hok3.size
      · unfold dirBlocks; rw [hsz]; exact hok3.pos
      · unfold dirBlocks at hl
        rw [hsz] at hl
        rw [hpb4]
        exact hok3.full l hl
      · rw [hent] at hy
        exact hok3.names τ y k hτ hy
    · exact hO.dirOk_ne e ((hm3 q).mpr ⟨hq1, hqn⟩) hok3
  · unfold isDir at hmd
    rw [hty] at hmd
    have hm1 := ((hmark m).mp hm).1
    rw [(hfile m hm1 hmd).size]
    exact h.sizes m hm1 hmd
  · rw [htree]
    exact h.tree.removeDir hP hd he

/-- The conditions under which `do_rmdir` removes a directory correctly: a parent that does not exist
is not taken for a directory, the directory is not named through its own `.`, and it has no index
blocks. -/
structure RmdirSafe (s : State) (path : CStr) : Prop where
  parent : (splitParent s path).1 = neg1 → (getInode s neg1).type ≠ fdDir
  not_dot : lastName path ≠ dot
  small : ∀ σ n, σ.1 = (splitParent s path).1 → ent s.disk σ = some (lastName path, n) →
    (inode s.disk n).ptr 10 = 0 ∧ (inode s.disk n).ptr 11 = 0

/-- The directory's blocks are its direct blocks, all within its size. -/
theorem dirBlocks_le_ten {d : Mem} {n : ℕ} (hok : DirOk d n) (h10 : (inode d n).ptr 10 = 0) :
    dirBlocks d n ≤ 10 := by
  by_contra hgt
  refine hok.full 10 (by omega) ?_
  show ref (cells d) (n, 10) [0] = 0
  exact ref_cons_of_eq h10

/-- The loop of `do_rmdir` over the direct pointers is that of `do_rm`: the first one is there. -/
theorem freeDirs_eq {node : Inode} (h0 : node.direct 0 ≠ 0) (s : State) :
    loop (fun i s => if node.direct i ≠ 0 ∨ i = 0 then freeBlock s (node.direct i) else s) 0 10 s =
      loop (fun i s => if node.direct i ≠ 0 then freeBlock s (node.direct i) else s) 0 10 s := by
  congr 1
  funext i s
  refine if_congr (or_iff_left_of_imp ?_) rfl rfl
  rintro rfl
  exact h0

/-- `do_rmdir`: -1 and nothing happens, or an empty directory is gone. -/
theorem doRmdir_spec {s : State} (h : WfState s) {path : CStr} (h0 : 0#8 ∉ path)
    (hsafe : RmdirSafe s path) :
    (∃ t, doRmdir s path = (-1, s.put s.disk t)) ∨
    (∃ n σ d t, doRmdir s path = (0, s.put d t) ∧ σ.1 = (splitParent s path).1 ∧
      ent s.disk σ = some (lastName path, n) ∧ RemovedDir s.disk d n) := by
  obtain ⟨p, x, t, e1, hp1, hx0, -⟩ := h.splitParent h0
  have hxn := splitParent_name s path
  obtain ⟨s1, s2, s3⟩ := hsafe
  rw [e1] at hxn s1 s3 ⊢
  simp only at hxn s1 s3 ⊢
  subst hxn
  unfold doRmdir
  simp only [e1]
  by_cases hpn : p = neg1
  · have e2 : findInodeByName (s.put s.disk t) p (lastName path) = (neg1, s.put s.disk t) := by
      rw [hpn]
      exact if_pos (s1 hpn)
    simp only [e2, if_true]
    exact Or.inl ⟨t, rfl⟩
  have hpm := hp1.resolve_left hpn
  rcases (h.put_temp t).findInodeByName hpm hx0 with ⟨τ, n, t2, hτ, hn, e2⟩ | ⟨-, t2, e2⟩
  swap
  · simp only [e2, if_true]
    exact Or.inl ⟨t2, rfl⟩
  simp only [State.put_disk, State.put_put] at e2 hn
  have hnm : imap s.disk n = true := h.wf.tree.target_live hn
  have hn' := imap_lt hnm
  have hp' := imap_lt hpm
  simp only [e2, if_neg (live_ne_neg1 hnm), getInode_eq _ hn', getInode_eq _ hp', State.put_disk]
  by_cases hroot : n = rootInodeNum
  · rw [if_pos hroot]
    exact Or.inl ⟨t2, rfl⟩
  rw [if_neg hroot]
  by_cases hnd : (inode s.disk n).type = fdDir
  swap
  · rw [if_pos hnd]
    exact Or.inl ⟨t2, rfl⟩
  rw [if_neg (not_not_intro hnd)]
  have hd : isDir s.disk n := hnd
  have hok := h.wf.dirs n hnm hd
  obtain ⟨h10, h11⟩ := s3 τ n hτ hn
  obtain ⟨c, t3, e3, hc⟩ := countDentries_spec h.wf.blk hnm (dirBlocks_le_ten hok h10) hok.full
    10 0 0 t2 rfl
  simp only [directBlockNum, e3]
  by_cases hc2 : c > 2
  · rw [if_pos hc2]
    exact Or.inl ⟨t3, rfl⟩
  rw [if_neg hc2]
  have he := empty_of_count h.wf hnm hd (by omega)
  have hpd : isDir s.disk p := by
    have := (h.wf.tree.owner_dir hn).2
    rwa [show naming.owner τ = p from hτ] at this
  obtain ⟨σ, m, t4, hσ, e4, hU⟩ := removeDentry_spec (s := s.put s.disk t3) h.wf.blk hpm hpd
    (h.wf.dirs p hpm hpd) hx0 (inode s.disk p) rfl rfl hτ hn
  simp only [State.put_disk, State.put_put] at hσ e4 hU
  obtain rfl := h.wf.tree.distinct hσ hn (hU.owner.trans hτ.symm)
  obtain rfl : m = n := by
    rw [hn] at hσ
    cases hσ
    rfl
  have hU' : Unlinked σ.1 σ s.disk (unlinkSlot s.disk σ) := by rwa [hU.owner]
  -- an empty directory has no subdirectory to be the parent of
  have hdd : lastName path ≠ dotdot := by
    intro e
    rw [e] at hσ
    obtain ⟨o1, o2⟩ := h.wf.tree.owner_dir hσ
    by_cases hr : σ.1 = 0
    · obtain ⟨u, hu, e'⟩ := h.wf.tree.dotdot_root
      obtain rfl := h.wf.tree.distinct hσ e' (show σ.1 = u.1 from hr.trans hu.symm)
      change ent s.disk σ = _ at e'
      rw [hσ] at e'
      cases e'
      exact hroot rfl
    · obtain ⟨w, hw⟩ := h.wf.tree.held o1 hr
      obtain ⟨u, hu, e'⟩ := h.wf.tree.dotdot_entry hw o2
      obtain rfl := h.wf.tree.distinct hσ e' hu.symm
      change ent s.disk σ = _ at e'
      rw [hσ] at e'
      cases e'
      exact he w _ rfl hw
  obtain ⟨u1, u2, u3, -, -⟩ := unlinkSlot_observe h.wf hσ
  have hs1 : SbOk (s.put (unlinkSlot s.disk σ) t4) := h.sbOk.put (hU.only.sb h.wf.sb) t4
  have hnm1 : imap (s.put (unlinkSlot s.disk σ) t4).disk m = true := (u1 m).trans hnm
  obtain ⟨d2, t5, e5, hC⟩ := freeDirect_spec hs1
    (show (inode s.disk m).ptr = (inode (unlinkSlot s.disk σ) m).ptr by rw [u3])
  simp only [State.put_disk, State.put_put] at e5 hC
  have hdir0 : (inode s.disk m).direct 0 ≠ 0 := by
    have := hok.full 0 hok.pos
    rwa [pblk_direct _ _ (by omega), Inode.ptr_direct _ (by omega)] at this
  -- without index blocks the direct blocks are all there is
  have hx := RmExact.of_direct (d := unlinkSlot s.disk σ) hnm1 (by rw [u3, h10]) (by rw [u3, h11])
  have hnamed : ∀ c, Named (unlinkSlot s.disk σ) m c ↔
      c ≠ 0 ∧ ∃ i < 10, (inode (unlinkSlot s.disk σ) m).ptr i = c := by
    intro c
    unfold Named NamedSingle
    rw [u3, h10, h11]
    simp
  have hF := hx.freed hU.only.inv (hC.congr hnamed)
  have hpos : 0 < (inode s.disk p).nlinks := by
    have e : (inode s.disk p).nlinks = _ := h.wf.tree.dir_links hpm hpd
    omega
  have hu : u32 ((inode s.disk p).nlinks + neg1) = (inode s.disk p).nlinks - 1 := by
    have := h.wf.links_lt hpm
    simp only [u32, neg1]
    omega
  have hfi := freeInode_put (s := s.put d2 t5) (h.sbOk.put (hF.sb (hU.only.sb h.wf.sb)) t5) hn'
  simp only [State.put_disk, State.put_temp, State.put_put] at hfi
  have hR := removedDir_of h.wf hσ ⟨s2, hdd⟩ hd he hU' hF
  rw [hU.owner] at hR
  refine Or.inr ⟨m, σ, _, sbTemp d2 t5, ?_, hU.owner, hσ, hR⟩
  simp only [e4, freeDirs_eq hdir0, e5, hfi, hu, writeInode_eq _ hp', State.put_disk,
    State.put_temp, State.put_put]

end RiscvKernel.Fs
