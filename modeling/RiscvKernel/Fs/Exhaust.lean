import RiscvKernel.Fs.Consistency
import RiscvKernel.Fs.Creation

/-!
# Creations that fail late

`do_touch` without a free inode goes on with the number -1: its entry is attached all the same, and
only the result tells of the failure. `touchFull_cases` lists what is on the disk then. The two
theorems of this module compare that with what a failed creation is meant to leave: a regular file
that was taken for a directory (`creation_keepsFile_iff`), and the whole file system when an
allocation fails (`creation_atomic_iff`).
-/

namespace RiscvKernel.Fs

open Lib Lib.Forest

/-! ## Writing a slot -/

section WriteSlot

variable {d : Mem} (h : BlkInv d) {p : ℕ} (hp : imap d p = true) {l j : ℕ} (h0 : pblk d p l ≠ 0)
  (hj : j < 204) (dm : Mem)

include hj in
theorem observe_writeSlot : (∀ m, imap (writeSlot d p (l, j) dm) m = imap d m) ∧
    (∀ b, bmap (writeSlot d p (l, j) dm) b = bmap d b) ∧
    (∀ m, inode (writeSlot d p (l, j) dm) m = inode d m) := by
  rw [← putBlock_writeSlot hj fun _ _ => rfl]
  exact ⟨fun m => imap_putBlock .., fun b => bmap_putBlock .., fun m => inode_putBlock ..⟩

include h hp h0 hj

theorem only_writeSlot : Only p d (writeSlot d p (l, j) dm) := by
  rw [← putBlock_writeSlot hj fun _ _ => rfl]
  exact only_putData h hp h0 _ 0

/-- The bytes of the inode the slot is in. -/
theorem fileByte_writeSlot (o : ℕ) : fileByte (writeSlot d p (l, j) dm) p o =
    if 4096 * l + 20 * j ≤ o ∧ o < 4096 * l + 20 * j + 20 then dm (o - (4096 * l + 20 * j))
    else fileByte d p o := by
  rw [← putBlock_writeSlot hj fun _ _ => rfl]
  unfold fileByte
  by_cases hl : o / 4096 = l
  · subst hl
    rw [fileBlock_putData_self h hp h0 _ 0 (Nat.mod_lt _ (by norm_num)), Nat.zero_add]
    by_cases hi : 20 * j ≤ o % 4096 ∧ o % 4096 < 20 * j + 20
    · rw [blit_in_of_le hi.1 hi.2, if_pos (by omega), Nat.zero_add]
      congr 1
      omega
    · rw [blit_out (by omega), if_neg (by omega)]
  · rw [fileBlock_putData h hp h0 _ 0 hp (by simp [hl]), if_neg (by omega)]

end WriteSlot

/-! ## Without a free inode -/

/-- `append_dentry` does nothing: no slot and no block is free, and the pointer that is missing is
not in the inode. -/
def Lost (d : Mem) (p : ℕ) : Prop :=
  freeSlot d p = none ∧ freeCount d = 0 ∧ 0 < need d p (endBlock d p) ∧ topPtr d p ≠ 0

section Full

variable {s : State} (h : WfState s) {path : CStr} (hP : Passed s path) (t : Mem)
  (hf : InodesFull s.disk)

include h hP hf

/-- What `do_touch` leaves when no inode is free: its entry in a free slot, nothing in the file
system, or a larger parent, a wrong pointer in it, or fewer free blocks. -/
theorem touchFull_cases (x : CStr) :
    (touchAt (s.put s.disk t) (parentOf s path) x).1 = neg1 ∧
    (touchAt (s.put s.disk t) (parentOf s path) x).2.allocFailed = true ∧
    ∃ d, (touchAt (s.put s.disk t) (parentOf s path) x).2.disk = d ∧
      ((∃ l j, freeSlot s.disk (parentOf s path) = some (l, j) ∧
          d = writeSlot (farDisk s.disk) (parentOf s path) (l, j) (mkDentry s.stack x neg1)) ∨
        (Lost s.disk (parentOf s path) ∧ d = farDisk s.disk) ∨
        (freeSlot s.disk (parentOf s path) = none ∧ ¬ Lost s.disk (parentOf s path) ∧
          ((inode d (parentOf s path)).size ≠ (inode s.disk (parentOf s path)).size ∨
            (inode d (parentOf s path)).ptr ≠ (inode s.disk (parentOf s path)).ptr ∨
            freeCount d ≠ freeCount s.disk))) := by
  obtain ⟨s', hs', hsb, hA, hinv, hp, hk, e⟩ := touchAt_full h hP t hf x
  obtain ⟨-, -, -, -, hflag⟩ := attach_frame hp hsb hinv hk (mkDentry s.stack x neg1)
  have hI := hA.intact (parentOf s path)
  have hsz := h.wf.size_lt hP.live
  have hsd : s'.disk = farDisk s.disk := by rw [hs']; rfl
  have hE := hI.endBlock
  have hF := hI.freeSlot h.wf.blk hP.live
  have hT := hI.topPtr
  have hN : need s'.disk (parentOf s path) (endBlock s'.disk (parentOf s path)) =
      need s.disk (parentOf s path) (endBlock s.disk (parentOf s path)) := by
    rw [hE]
    exact hI.need h.wf.blk hP.live (h.wf.endBlock_lt hP.live)
  rw [e]
  generalize parentOf s path = p at *
  refine ⟨rfl, hflag.mpr (Or.inl (by rw [hs']; rfl)), _, rfl, ?_⟩
  cases hfs : freeSlot s'.disk p with
  | some σ =>
    obtain ⟨l, j⟩ := σ
    obtain ⟨t', e1⟩ := attach_slot hp hk.le (fun l hl => hinv.pathOk hp (by omega)) hfs
      (mkDentry s.stack x neg1)
    refine Or.inl ⟨l, j, hF.symm.trans hfs, ?_⟩
    rw [e1, ← hsd]
    rfl
  | none =>
    have hfs' : freeSlot s.disk p = none := hF.symm.trans hfs
    by_cases hr : need s'.disk p (endBlock s'.disk p) ≤ freeCount s'.disk
    · obtain ⟨d, t', u, y, e1, -, -, -, -, -, -, -, -, hy⟩ :=
        attach_room hp hsb hinv hk hfs hr (mkDentry s.stack x neg1)
      refine Or.inr (Or.inr ⟨hfs', ?_, Or.inl ?_⟩)
      · rintro ⟨-, h1, h2, -⟩
        rw [hN, hA.freeCount] at hr
        omega
      · rw [e1]
        show (inode (putInode _ p y) p).size ≠ _
        rw [inode_putInode_self _ _ (imap_lt hp), hy, hA.inode, u32_of_lt hsz]
        omega
    · rcases attach_short hp hsb hinv hk hfs (not_le.mp hr) (mkDentry s.stack x neg1) with
        ⟨h1, h2, t', y, e1, hS⟩ | ⟨d, t', e1, hz, -, -, hd, -⟩
      · refine Or.inr (Or.inr ⟨hfs', fun hL => hL.2.2.2 (hT ▸ h2), Or.inr (Or.inl ?_)⟩)
        rw [e1]
        show (inode (putInode _ p y) p).ptr ≠ _
        rw [inode_putInode_self _ _ (imap_lt hp)]
        intro e2
        have e3 := congrFun e2 (blockPath (endBlock s'.disk p)).1
        rw [hS.ptr, if_pos rfl, hE] at e3
        rw [hT] at h2
        exact absurd (e3.trans h2) (by decide)
      · rw [e1]
        by_cases hz' : freeCount s.disk = 0
        · obtain ⟨rfl, ht⟩ := hd (hA.freeCount.trans hz')
          refine Or.inr (Or.inl ⟨⟨hfs', hz', ?_, fun e => ht (hT.trans e)⟩, hsd⟩)
          rw [hN, hA.freeCount] at hr
          omega
        · refine Or.inr (Or.inr ⟨hfs', fun ⟨_, h1, _⟩ => hz' h1, Or.inr (Or.inr ?_)⟩)
          show freeCount d ≠ _
          omega

end Full

/-! ## Regular files as parents -/

/-- File `p` and the maps are as before. -/
structure KeepsFile (p : ℕ) (d d' : Mem) : Prop where
  bytes : ∀ o < (inode d p).size, fileByte d' p o = fileByte d p o
  size : (inode d' p).size = (inode d p).size
  nlinks : (inode d' p).nlinks = (inode d p).nlinks
  ptr : (inode d' p).ptr = (inode d p).ptr
  imap : ∀ m, imap d' m = imap d m
  bmap : ∀ b, bmap d' b = bmap d b

theorem KeepsFile.refl (p : ℕ) (d : Mem) : KeepsFile p d d :=
  ⟨fun _ _ => rfl, rfl, rfl, rfl, fun _ => rfl, fun _ => rfl⟩

/-- The parent, a file, is left alone: the lookups refuse the call, or `do_touch` has no free inode
and its entry changes no byte of the file. -/
def LeavesFile (s : State) : Creation → Prop
  | .mkdir _ => False
  | .ln src _ => ¬ SourceOk s src
  | .touch path => InodesFull s.disk ∧
    match freeSlot s.disk (parentOf s path) with
    | some (l, j) => ∀ i < 20, 4096 * l + 20 * j + i < (inode s.disk (parentOf s path)).size →
        fileByte s.disk (parentOf s path) (4096 * l + 20 * j + i) =
          mkDentry s.stack (lastName path) neg1 i
    | none => Lost s.disk (parentOf s path)

theorem agree_farDisk (d : Mem) : Agree d (farDisk d) := agree_writeFar d _

/-- Whatever is written behind the file system, a file is as before. -/
theorem keepsFile_farDisk {d : Mem} (h : BlkInv d) {p : ℕ} (hp : imap d p = true) :
    KeepsFile p d (farDisk d) where
  bytes o _ := by
    unfold fileByte
    rw [(agree_farDisk d).fileBlock h hp]
  size := by rw [(agree_farDisk d).inode]
  nlinks := by rw [(agree_farDisk d).inode]
  ptr := by rw [(agree_farDisk d).inode]
  imap := (agree_farDisk d).imap
  bmap := (agree_farDisk d).bmap

/-- A slot written to a file keeps it when the bytes are there already. -/
theorem keepsFile_slot {d : Mem} (h : BlkInv d) {p l j : ℕ} (hp : imap d p = true)
    (h0 : pblk d p l ≠ 0) (hj : j < 204) (dm : Mem) :
    KeepsFile p d (writeSlot (farDisk d) p (l, j) dm) ↔
      ∀ i < 20, 4096 * l + 20 * j + i < (inode d p).size →
        fileByte d p (4096 * l + 20 * j + i) = dm i := by
  have hA := agree_farDisk d
  have hp' : imap (farDisk d) p = true := (hA.imap p).trans hp
  have hfar := keepsFile_farDisk h hp
  have hb : pblk (farDisk d) p l ≠ 0 := by
    rw [hA.pblk h hp]
    exact h0
  have hbyte := fileByte_writeSlot (hA.inv h) hp' hb hj dm
  obtain ⟨o1, o2, o3⟩ := observe_writeSlot (d := farDisk d) (p := p) (l := l) hj dm
  constructor
  · intro hk i hi hlt
    rw [← hk.bytes _ hlt, hbyte, if_pos (by omega), Nat.add_sub_cancel_left]
  · intro hk
    refine ⟨fun o ho => ?_, by rw [o3, hfar.size], by rw [o3, hfar.nlinks], by rw [o3, hfar.ptr],
      fun m => (o1 m).trans (hfar.imap m), fun b => (o2 b).trans (hfar.bmap b)⟩
    rw [hbyte]
    split_ifs with hc
    · obtain ⟨i, rfl⟩ := Nat.exists_eq_add_of_le hc.1
      rw [Nat.add_sub_cancel_left, hk i (by omega) ho]
    · exact hfar.bytes o ho

/-- A call whose parent is a regular file returns -1 and leaves the file alone, if and only if the
lookups refuse the source, or `do_touch` finds no free inode and its entry does no harm. -/
theorem creation_keepsFile_iff {s : State} (h : WfState s) {c : Creation} (hc : c.Clean)
    (hp : parentOf s c.path ≠ neg1) (hd : ¬ isDir s.disk (parentOf s c.path)) :
    ((c.run s).1 = -1 ∧ KeepsFile (parentOf s c.path) s.disk (c.run s).2.disk) ↔
      LeavesFile s c := by
  cases c with
  | mkdir path =>
    refine iff_of_false (fun hr => ?_) id
    have := h.doMkdir_passed hc (h.vacant_of_file hc hp hd)
    rw [show (doMkdir s path).1 = -1 from hr.1] at this
    norm_num at this
  | ln src path =>
    have hv := h.vacant_of_file hc.2 hp hd
    by_cases hS : SourceOk s src
    · refine iff_of_false (fun hr => ?_) (not_not_intro hS)
      have := h.doLn_passed hc.1 hc.2 hS hv
      rw [show (doLn s src path).1 = -1 from hr.1] at this
      norm_num at this
    · obtain ⟨t, e⟩ := h.creation_refused hc (fun hc' => hS hc'.1)
      rw [e]
      exact iff_of_true ⟨rfl, KeepsFile.refl _ _⟩ hS
  | touch path =>
    have hv := h.vacant_of_file hc hp hd
    by_cases hf : InodesFull s.disk
    swap
    · exact iff_of_false (fun hr => h.doTouch_passed hc hv hf hr.1) fun hL => hf hL.1
    rcases h.doTouch_cases hc with ⟨hn, -⟩ | ⟨hP, t, e⟩
    · exact absurd hv hn
    obtain ⟨e1, -, d, e2, hcase⟩ := touchFull_cases h hP t hf (lastName path)
    have hres : ((Creation.touch path).run s).1 = -1 := by
      show asInt (doTouch s path).1 = -1
      rw [e, e1]
      decide
    have hdisk : ((Creation.touch path).run s).2.disk = d := by
      show (doTouch s path).2.disk = d
      rw [e, e2]
    rw [hdisk]
    change (_ ∧ KeepsFile (parentOf s path) s.disk d) ↔ InodesFull s.disk ∧ _
    rw [and_iff_right hres, and_iff_right hf]
    rcases hcase with ⟨l, j, hfs, rfl⟩ | ⟨hL, rfl⟩ | ⟨hfs, hL, hbad⟩
    · obtain ⟨-, h0, hj, -⟩ := firstSlot_some hfs
      rw [hfs]
      exact keepsFile_slot h.wf.blk hP.live h0 hj _
    · rw [hL.1]
      exact iff_of_true (keepsFile_farDisk h.wf.blk hP.live) hL
    · rw [hfs]
      refine iff_of_false (fun hk => ?_) hL
      rcases hbad with hb | hb | hb
      · exact hb hk.size
      · exact hb hk.ptr
      · exact hb (freeCount_congr hk.bmap)

/-- After `growthRun`, for a path through the file `a/b`. -/
theorem creation_keepsFile_growthRun :
    ((((Creation.touch [97#8, slash, 98#8, slash, 99#8]).run (stateAfter growthRun)).1 = -1 ∧
      KeepsFile 2 (stateAfter growthRun).disk
        ((Creation.touch [97#8, slash, 98#8, slash, 99#8]).run (stateAfter growthRun)).2.disk) ↔
      LeavesFile (stateAfter growthRun) (.touch [97#8, slash, 98#8, slash, 99#8])) := by
  have hp : parentOf (stateAfter growthRun) [97#8, slash, 98#8, slash, 99#8] = 2 := by
    decide +kernel
  have key := creation_keepsFile_iff (stateAfter_wf growthRun_valid)
    (c := .touch [97#8, slash, 98#8, slash, 99#8]) (show 0#8 ∉ _ by decide)
    (by rw [Creation.path, hp]; decide) (by rw [Creation.path, hp]; decide +kernel)
  rw [Creation.path, hp] at key
  exact key

/-- `a/b` is a file of five bytes. `do_touch` of `a/b/c` returns inode 3, and writes the name `c`
over the first byte of the file. -/
theorem doTouch_in_file :
    parentOf (stateAfter growthRun) [97#8, slash, 98#8, slash, 99#8] = 2 ∧
    ¬ isDir (stateAfter growthRun).disk 2 ∧ (inode (stateAfter growthRun).disk 2).size = 5 ∧
    ((Creation.touch [97#8, slash, 98#8, slash, 99#8]).run (stateAfter growthRun)).1 = 3 ∧
    fileByte (stateAfter growthRun).disk 2 0 = 0#8 ∧
    fileByte ((Creation.touch [97#8, slash, 98#8, slash, 99#8]).run
      (stateAfter growthRun)).2.disk 2 0 = 99#8 := by
  decide +kernel

/-! ## Allocation failures -/

/-- `alloc_inode` or `alloc_block` fails in the call. -/
def Exhausts (s : State) : Creation → Prop
  | .mkdir path => Vacant s path ∧ (InodesFull s.disk ∨ freeCount s.disk = 0 ∨
      freeSlot s.disk (parentOf s path) = none ∧ freeCount s.disk <
        need s.disk (parentOf s path) (endBlock s.disk (parentOf s path)) + 1)
  | .touch path => Vacant s path ∧ (InodesFull s.disk ∨ ¬ Room s.disk (parentOf s path))
  | .ln src path => SourceOk s src ∧ Vacant s path ∧ ¬ Room s.disk (parentOf s path)

theorem attach_failed {s : State} (hs : s.allocFailed = true) (p : ℕ) (dm : Mem) :
    (attach s p dm).allocFailed = true := by
  by_contra hc
  rw [Bool.not_eq_true] at hc
  have hf := appendDentry_failed
    (show (appendDentry s (getInode s p) p dm).2.allocFailed = false from hc)
  rw [hs] at hf
  cases hf

theorem bumpLinks_allocFailed (s : State) (p : ℕ) :
    (bumpLinks s p).allocFailed = s.allocFailed := rfl

section Failed

variable {s : State} (h : WfState s) (hfl : s.allocFailed = false) {path : CStr}

include h hfl

theorem WfState.doMkdir_failed (h0 : 0#8 ∉ path) :
    (doMkdir s path).2.allocFailed = true ↔ Exhausts s (.mkdir path) := by
  rcases h.doMkdir_cases h0 with ⟨hv, t, e⟩ | ⟨hP, t, e⟩
  · rw [e]
    refine iff_of_false (fun hc => ?_) fun hx => hv hx.1
    rw [State.put_allocFailed, hfl] at hc
    cases hc
  have hX : Exhausts s (.mkdir path) ↔ _ := and_iff_right hP.vacant
  rw [e, mkdirAt_eq (imap_lt hP.live), hX, bumpLinks_allocFailed]
  by_cases hf : InodesFull s.disk
  · exact iff_of_true (attach_failed (mkdirState_full h t hf).2 _ _) (Or.inl hf)
  by_cases hz : freeCount s.disk = 0
  · obtain ⟨n, t', -, -, -, e'⟩ : ∃ n t', n < 4096 ∧ imap s.disk n = false ∧ (allocInode s).1 = n ∧
        mkdirState (s.put s.disk t) (parentOf s path) =
          (s.put (spoiltDisk s.disk n (parentOf s path) t) t').fail := mkdirState_spoilt h t hf hz
    rw [e']
    exact iff_of_true (attach_failed rfl _ _) (Or.inr (Or.inl hz))
  obtain ⟨n, b, t', s', -, -, -, -, -, e', hs', hsb, hB, hc, hp, hI, hk⟩ :=
    mkdirState_ok h t hP hf hz
  obtain ⟨-, -, -, -, hflag⟩ := attach_frame hp hsb hB.inv hk
    (mkDentry (s.put s.disk t).stack (lastName path) (allocInode (s.put s.disk t)).1)
  have hs0 : s'.allocFailed = false := by
    rw [hs']
    exact hfl
  rw [e', hflag, hs0, hI.room h.wf.blk hP.live (h.wf.endBlock_lt hP.live)]
  simp only [Bool.false_eq_true, false_or, hf, hz, not_or, not_not, not_le]
  refine and_congr_right fun _ => ?_
  omega

theorem WfState.doTouch_failed (h0 : 0#8 ∉ path) :
    (doTouch s path).2.allocFailed = true ↔ Exhausts s (.touch path) := by
  rcases h.doTouch_cases h0 with ⟨hv, t, e⟩ | ⟨hP, t, e⟩
  · rw [e]
    refine iff_of_false (fun hc => ?_) fun hx => hv hx.1
    rw [State.put_allocFailed, hfl] at hc
    cases hc
  have hX : Exhausts s (.touch path) ↔ _ := and_iff_right hP.vacant
  rw [e, hX]
  by_cases hf : InodesFull s.disk
  · obtain ⟨-, hflag, -⟩ := touchFull_cases h hP t hf (lastName path)
    exact iff_of_true hflag (Or.inl hf)
  obtain ⟨n, s', hn, -, -, hs', hsb, hB, hp, hk, e'⟩ := touchAt_free h hP t hf (lastName path)
  obtain ⟨-, -, -, -, hflag⟩ := attach_frame hp hsb hB.inv hk (mkDentry s.stack (lastName path) n)
  have hs0 : s'.allocFailed = false := by
    rw [hs']
    exact hfl
  have hI : Intact (parentOf s path) s.disk s'.disk := by
    rw [hs']
    exact intact_fileDisk hn (hB.ne hP.live)
  have hc : freeCount s'.disk = freeCount s.disk := by
    rw [hs']
    exact freeCount_fileDisk hn
  rw [e', hflag, hs0, hI.room h.wf.blk hP.live (h.wf.endBlock_lt hP.live), hc]
  simp only [Bool.false_eq_true, false_or, hf]
  rfl

theorem WfState.doLn_failed {src : CStr} (h1 : 0#8 ∉ src) (h0 : 0#8 ∉ path) :
    (doLn s src path).2.allocFailed = true ↔ Exhausts s (.ln src path) := by
  rcases h.doLn_cases h0 h1 with ⟨hv, t, e⟩ | ⟨hS, -, hP, t, e⟩
  · rw [e]
    refine iff_of_false (fun hc => ?_) fun hx => hv ⟨hx.1, hx.2.1⟩
    rw [State.put_allocFailed, hfl] at hc
    cases hc
  have hX : Exhausts s (.ln src path) ↔ _ := and_iff_right hS
  obtain ⟨-, -, -, -, hflag⟩ := attach_frame (s := s.put s.disk t) hP.live (h.put_temp t).sbOk
    h.wf.blk (h.wf.endBlock_lt hP.live) (mkDentry (s.put s.disk t).stack (lastName path)
      (Fs.findInodeByPath s src).1)
  rw [e, hX, and_iff_right hP.vacant]
  unfold linkAt
  rw [writeInode_allocFailed, hflag, State.put_allocFailed, hfl]
  simp only [Bool.false_eq_true, false_or, State.put_disk]

/-- The allocation failures of a creation. -/
theorem WfState.creation_failed {c : Creation} (hc : c.Clean) :
    (c.run s).2.allocFailed = true ↔ Exhausts s c := by
  cases c with
  | mkdir path => exact h.doMkdir_failed hfl hc
  | touch path => exact h.doTouch_failed hfl hc
  | ln src path => exact h.doLn_failed hfl hc.1 hc.2

end Failed

/-! ## Atomicity -/

/-- The maps, the inode table and the entries are as before. -/
structure Unmoved (d d' : Mem) : Prop where
  imap : ∀ m, imap d' m = imap d m
  bmap : ∀ b, bmap d' b = bmap d b
  inode : ∀ m, inode d' m = inode d m
  ent : ∀ σ, ent d' σ = ent d σ

theorem Unmoved.refl (d : Mem) : Unmoved d d :=
  ⟨fun _ => rfl, fun _ => rfl, fun _ => rfl, fun _ => rfl⟩

/-- `do_touch` has no free inode, and its entry is not one: the name is empty, the parent is not a
directory, or there is no place for it. -/
def Unseen (s : State) : Creation → Prop
  | .mkdir _ => False
  | .ln _ _ => False
  | .touch path => InodesFull s.disk ∧
    match freeSlot s.disk (parentOf s path) with
    | some _ => lastName path = [] ∨ ¬ isDir s.disk (parentOf s path)
    | none => Lost s.disk (parentOf s path)

theorem unmoved_farDisk {d : Mem} (h : BlkInv d) : Unmoved d (farDisk d) :=
  have hA := agree_farDisk d
  ⟨hA.imap, hA.bmap, hA.inode, fun σ => ent_congr (hA.imap _) (hA.inode _) fun hm =>
    hA.fileBlock h hm _⟩

theorem mkDentry_zero (m : Mem) {x : CStr} (hx : 0#8 ∉ x) (n : ℕ) :
    mkDentry m x n 0 = 0#8 ↔ x = [] := by
  have e : mkDentry m x n 0 = strcpy m 0 x 0 := by
    unfold mkDentry putWord
    exact putLe_out (Or.inl (by simp only [maxFnameLen]; omega))
  have e' := strcpy_in (m := m) (a := 0) (s := x) (Nat.zero_le _)
  rw [Nat.zero_add] at e'
  rw [e, e']
  cases x with
  | nil => exact iff_of_true rfl rfl
  | cons c x => exact iff_of_false (fun hc => hx (hc ▸ List.mem_cons_self)) (List.cons_ne_nil _ _)

/-- The entry in a free slot is seen in a directory if it has a name. -/
theorem unmoved_slot {d : Mem} (h : Wf d) {p l j : ℕ} (hp : imap d p = true)
    (hfs : freeSlot d p = some (l, j)) (m : Mem) {x : CStr} (hx : 0#8 ∉ x) (n : ℕ) :
    Unmoved d (writeSlot (farDisk d) p (l, j) (mkDentry m x n)) ↔ x = [] ∨ ¬ isDir d p := by
  obtain ⟨hl, h0, hj, hfree⟩ := firstSlot_some hfs
  have hA := agree_farDisk d
  have hfar := unmoved_farDisk h.blk
  have hp' : imap (farDisk d) p = true := (hA.imap p).trans hp
  have hb : pblk (farDisk d) p l ≠ 0 := by
    rw [hA.pblk h.blk hp]
    exact h0
  obtain ⟨o1, o2, o3⟩ := observe_writeSlot (d := farDisk d) (p := p) (l := l) hj (mkDentry m x n)
  have hO := only_writeSlot (hA.inv h.blk) hp' hb hj (mkDentry m x n)
  have hiff : Unmoved d (writeSlot (farDisk d) p (l, j) (mkDentry m x n)) ↔
      ∀ σ, ent (writeSlot (farDisk d) p (l, j) (mkDentry m x n)) σ = ent d σ :=
    ⟨Unmoved.ent, fun he => ⟨fun m => (o1 m).trans (hA.imap m), fun b => (o2 b).trans (hA.bmap b),
      fun m => (o3 m).trans (hA.inode m), he⟩⟩
  rw [hiff]
  by_cases hd : isDir d p
  swap
  · refine iff_of_true (fun σ => ?_) (Or.inr hd)
    by_cases hσ : σ.1 = p
    · have hd' : ¬ isDir (writeSlot (farDisk d) p (l, j) (mkDentry m x n)) p := by
        unfold isDir
        rw [o3, hA.inode]
        exact hd
      obtain ⟨q, k, i⟩ := σ
      obtain rfl : q = p := hσ
      rw [ent, if_neg fun hc => hd' hc.2.1, ent, if_neg fun hc => hd hc.2.1]
    · exact (hO.ent_ne hσ).trans (hfar.ent σ)
  · have hk := (h.dirs p hp hd).blocks_le h.blk hp
    rw [(h.dirs p hp hd).numBlocks_eq hk rfl] at hl
    have hd' : isDir (farDisk d) p := by
      unfold isDir
      rw [hA.inode]
      exact hd
    have hl' : l < dirBlocks (farDisk d) p := by
      unfold dirBlocks
      rw [hA.inode]
      exact hl
    have hent := ent_putSlot (hA.inv h.blk) hp' hd' hl' hj hb
      (t := blit (fileBlock (farDisk d) p l) (20 * j) (mkDentry m x n) 0 20)
      fun i _ hi => blit_out hi
    rw [putBlock_writeSlot hj fun _ _ => rfl] at hent
    have hnone : ent d (p, l, j) = none := by
      rw [ent_of hp hd hl hj, dentryAt, if_pos (by simpa [isFree] using hfree)]
    have hzero : dentryAt (blit (fileBlock (farDisk d) p l) (20 * j) (mkDentry m x n) 0 20)
        (20 * j) = none ↔ x = [] := by
      rw [dentryAt, blit_in_of_le le_rfl (by omega), Nat.sub_self, Nat.add_zero,
        ← mkDentry_zero m hx n]
      split_ifs with hz
      · exact iff_of_true rfl hz
      · exact iff_of_false (by simp) hz
    rw [or_iff_left (not_not_intro hd), ← hzero]
    constructor
    · intro he
      rw [← hnone, ← he (p, l, j), hent, if_pos rfl]
    · intro hz σ
      rw [hent]
      split_ifs with hσ
      · rw [hσ, hz, hnone]
      · exact hfar.ent σ

/-- A creation in which an allocation fails returns -1 and leaves the maps, the inodes and the
entries as they are, if and only if it is `do_touch` without a free inode and with an entry that is
not seen. -/
theorem creation_atomic_iff {s : State} (h : WfState s) {c : Creation} (hc : c.Clean)
    (hfl : s.allocFailed = false) :
    ((c.run s).2.allocFailed = true → (c.run s).1 = -1 ∧ Unmoved s.disk (c.run s).2.disk) ↔
      (Exhausts s c → Unseen s c) := by
  rw [h.creation_failed hfl hc]
  refine forall_congr' fun hX => ?_
  cases c with
  | mkdir path =>
    refine iff_of_false (fun hr => ?_) id
    have := h.doMkdir_passed hc hX.1
    rw [show (doMkdir s path).1 = -1 from hr.1] at this
    norm_num at this
  | ln src path =>
    refine iff_of_false (fun hr => ?_) id
    have := h.doLn_passed hc.1 hc.2 hX.1 hX.2.1
    rw [show (doLn s src path).1 = -1 from hr.1] at this
    norm_num at this
  | touch path =>
    by_cases hf : InodesFull s.disk
    swap
    · exact iff_of_false (fun hr => h.doTouch_passed hc hX.1 hf hr.1) fun hu => hf hu.1
    rcases h.doTouch_cases hc with ⟨hn, -⟩ | ⟨hP, t, e⟩
    · exact absurd hX.1 hn
    obtain ⟨e1, -, d, e2, hcase⟩ := touchFull_cases h hP t hf (lastName path)
    have hres : ((Creation.touch path).run s).1 = -1 := by
      show asInt (doTouch s path).1 = -1
      rw [e, e1]
      decide
    have hdisk : ((Creation.touch path).run s).2.disk = d := by
      show (doTouch s path).2.disk = d
      rw [e, e2]
    rw [hdisk, and_iff_right hres]
    change _ ↔ InodesFull s.disk ∧ _
    rw [and_iff_right hf]
    rcases hcase with ⟨l, j, hfs, rfl⟩ | ⟨hL, rfl⟩ | ⟨hfs, hL, hbad⟩
    · rw [hfs]
      exact unmoved_slot h.wf hP.live hfs s.stack (zero_notMem_lastName hc) neg1
    · rw [hL.1]
      exact iff_of_true (unmoved_farDisk h.wf.blk) hL
    · rw [hfs]
      refine iff_of_false (fun hu => ?_) hL
      rcases hbad with hb | hb | hb
      · exact hb (by rw [hu.inode])
      · exact hb (by rw [hu.inode])
      · exact hb (freeCount_congr hu.bmap)

/-- After `growthRun`, for a new directory `c`. -/
theorem creation_atomic_growthRun :
    (((Creation.mkdir [99#8]).run (stateAfter growthRun)).2.allocFailed = true →
      ((Creation.mkdir [99#8]).run (stateAfter growthRun)).1 = -1 ∧
        Unmoved (stateAfter growthRun).disk
          ((Creation.mkdir [99#8]).run (stateAfter growthRun)).2.disk) ↔
      (Exhausts (stateAfter growthRun) (.mkdir [99#8]) →
        Unseen (stateAfter growthRun) (.mkdir [99#8])) :=
  creation_atomic_iff (stateAfter_wf growthRun_valid) (show 0#8 ∉ _ by decide) (by decide +kernel)

/-- A new file system whose inode map is full. -/
def fullMap : State :=
  (boot.load 0 fun _ => 0#8).put (blit boot.disk imapBase (fun _ => 0xff#8) 0 512) fun _ => 0#8

/-- `do_mkdir` returns 0; its entry is for inode -1. -/
theorem doMkdir_full :
    ((Creation.mkdir [97#8]).run fullMap).2.allocFailed = true ∧
    ((Creation.mkdir [97#8]).run fullMap).1 = 0 ∧
    ent fullMap.disk (0, 0, 2) = none ∧
    ent ((Creation.mkdir [97#8]).run fullMap).2.disk (0, 0, 2) = some ([97#8], neg1) := by
  decide +kernel

end RiscvKernel.Fs
