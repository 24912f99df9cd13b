import RiscvKernel.Fs.Attach
import RiscvKernel.Fs.Lookup

/-!
# Creations in any circumstances

`do_mkdir`, `do_touch` and `do_ln` first look up the parent and the name, and return -1 when the
parent is not there or has an entry of that name (`Vacant` says the contrary); nothing is changed
then. After that they only go on: `mkdirAt`, `touchAt` and `linkAt` are what is left, and none of
them looks at the type of the parent, at the length of the name or at what `append_dentry` did.
-/

namespace RiscvKernel.Fs

open Lib Lib.Forest

/-! ## The lookups -/

/-- The inode of the parent part of a path. -/
def parentOf (s : State) (path : CStr) : ℕ := (splitParent s path).1

/-- The parent part of the path resolves, and `find_inode_by_name` finds no entry of the last
component in it. -/
def Vacant (s : State) (path : CStr) : Prop :=
  parentOf s path ≠ neg1 ∧
    (findInodeByName (splitParent s path).2.2 (parentOf s path) (lastName path)).1 = neg1

instance (s : State) (path : CStr) : Decidable (Vacant s path) := by
  unfold Vacant; infer_instance

theorem zero_notMem_lastName {path : CStr} (h0 : 0#8 ∉ path) : 0#8 ∉ lastName path := by
  unfold lastName
  split
  · exact h0
  · exact fun hm => h0 (List.mem_of_mem_drop hm)

theorem Quiet.findInodeByPath {s s' : State} (h : Quiet s s') (path : CStr) :
    (Fs.findInodeByPath s' path).1 = (Fs.findInodeByPath s path).1 := by
  have hd := h.dirInode
  unfold Fs.findInodeByPath
  rw [hd]
  split_ifs
  · exact h.walkPath _ _ _
  · exact h.walkPath _ _ _

theorem quiet_splitParent (s : State) (path : CStr) : Quiet s (splitParent s path).2.2 := by
  unfold splitParent
  split
  · exact Quiet.refl s
  · exact quiet_findInodeByPath s _

theorem Quiet.parentOf {s s' : State} (h : Quiet s s') (path : CStr) :
    parentOf s' path = parentOf s path := by
  unfold Fs.parentOf splitParent
  split
  · exact h.dirInode
  · exact h.findInodeByPath _

theorem Quiet.vacant {s s' : State} (h : Quiet s s') (path : CStr) :
    Vacant s' path ↔ Vacant s path := by
  have hq := ((quiet_splitParent s path).symm.trans h).trans (quiet_splitParent s' path)
  unfold Vacant
  rw [h.parentOf, hq.findInodeByName]

/-! ## The calls after the lookups -/

/-- `do_touch` after the lookups. -/
def touchAt (s : State) (parent : ℕ) (name : CStr) : ℕ × State :=
  let (newInode, s) := allocInode s
  let s := writeInode s newInode newFileInode
  (newInode, attach s parent (mkDentry s.stack name newInode))

/-- `do_mkdir` after the lookups. -/
def mkdirAt (s : State) (parent : ℕ) (name : CStr) : ℤ × State :=
  let (newInode, s) := allocInode s
  let (newBlock, s) := allocBlock s
  let s := writeInode s newInode (newDirInode newBlock)
  let s := s.setTemp (putDots (fill s.temp 0 0#8 blockSize) newInode parent)
  let s := writeBlock s newBlock 0
  let (node, s) := appendDentry s (getInode s parent) parent (mkDentry s.stack name newInode)
  (0, writeInode s parent (node.setNlinks (node.nlinks + 1)))

/-- `do_ln` after the lookups; `srcNode` was read before them. -/
def linkAt (s : State) (src : ℕ) (srcNode : Inode) (parent : ℕ) (name : CStr) : ℤ × State :=
  let s := attach s parent (mkDentry s.stack name src)
  (0, writeInode s src (srcNode.setNlinks (srcNode.nlinks + 1)))

theorem doTouch_eq (s : State) (path : CStr) : doTouch s path =
    let (parent, name, s) := splitParent s path
    if slash ∈ path ∧ parent = neg1 then (neg1, s)
    else
      let (found, s) := findInodeByName s parent name
      if found ≠ neg1 then (neg1, s) else touchAt s parent name := rfl

theorem doMkdir_eq (s : State) (path : CStr) : doMkdir s path =
    let (parent, name, s) := splitParent s path
    if slash ∈ path ∧ parent = neg1 then (-1, s)
    else
      let (found, s) := findInodeByName s parent name
      if found ≠ neg1 then (-1, s) else mkdirAt s parent name := rfl

theorem doLn_eq (s : State) (srcPath dstPath : CStr) : doLn s srcPath dstPath =
    let (src, s) := findInodeByPath s srcPath
    if src = neg1 then (-1, s)
    else
      let srcNode := getInode s src
      if srcNode.type = fdDir then (-1, s)
      else
        let (parent, name, s) := splitParent s dstPath
        if parent = neg1 then (-1, s)
        else
          let (found, s) := findInodeByName s parent name
          if found ≠ neg1 then (-1, s) else linkAt s src srcNode parent name := rfl

/-- What the lookups have found when they let a creation pass. -/
structure Passed (s : State) (path : CStr) : Prop where
  vacant : Vacant s path
  live : imap s.disk (parentOf s path) = true
  fresh : ∀ σ m, σ.1 = parentOf s path → ent s.disk σ ≠ some (lastName path, m)

section Cases

variable {s : State} (h : WfState s) {path : CStr} (h0 : 0#8 ∉ path)

include h h0

theorem WfState.parent_live (hp : parentOf s path ≠ neg1) :
    imap s.disk (parentOf s path) = true := by
  obtain ⟨p, x, t, e, hp1, -⟩ := h.splitParent h0
  unfold parentOf at hp ⊢
  rw [e] at hp ⊢
  exact hp1.resolve_left hp

/-- The lookups that `do_mkdir`, `do_touch` and `do_ln` make. -/
theorem WfState.lookups :
    ∃ t, Fs.splitParent s path = (parentOf s path, lastName path, s.put s.disk t) ∧
      ((parentOf s path = neg1 ∧ slash ∈ path ∧ ¬ Vacant s path) ∨
        (parentOf s path ≠ neg1 ∧ ∃ r t2,
          Fs.findInodeByName (s.put s.disk t) (parentOf s path) (lastName path) =
            (r, s.put s.disk t2) ∧
          ((r ≠ neg1 ∧ ¬ Vacant s path) ∨ (r = neg1 ∧ Passed s path)))) := by
  obtain ⟨p, x, t, e, hp1, hx0, hneg⟩ := h.splitParent h0
  have hx := splitParent_name s path
  have hv : Vacant s path ↔ p ≠ neg1 ∧ (Fs.findInodeByName (s.put s.disk t) p x).1 = neg1 := by
    unfold Vacant parentOf
    rw [← hx, e]
  rw [e] at hx
  dsimp only at hx
  subst hx
  obtain rfl : parentOf s path = p := by
    unfold parentOf
    rw [e]
  refine ⟨t, e, ?_⟩
  by_cases hpn : parentOf s path = neg1
  · exact Or.inl ⟨hpn, hneg hpn, fun hc => (hv.mp hc).1 hpn⟩
  have hpm := hp1.resolve_left hpn
  refine Or.inr ⟨hpn, ?_⟩
  rcases (h.put_temp t).findInodeByName hpm hx0 with ⟨σ, m, t2, -, hm, e2⟩ | ⟨hno, t2, e2⟩
  · have hmn := live_ne_neg1 (h.wf.tree.target_live hm)
    refine ⟨m, t2, e2, Or.inl ⟨hmn, fun hc => hmn ?_⟩⟩
    have := (hv.mp hc).2
    rwa [e2] at this
  · exact ⟨neg1, t2, e2, Or.inr ⟨rfl, hv.mpr ⟨hpn, by rw [e2]⟩, hpm, hno⟩⟩

/-- Nothing is found in a regular file, so its names are all free. -/
theorem WfState.vacant_of_file (hp : parentOf s path ≠ neg1)
    (hd : ¬ isDir s.disk (parentOf s path)) : Vacant s path := by
  have hlt := imap_lt (h.parent_live h0 hp)
  obtain ⟨t, -, ⟨hn, -⟩ | ⟨-, r, t2, e2, ⟨hr, -⟩ | ⟨-, hP⟩⟩⟩ := h.lookups h0
  · exact absurd hn hp
  · rw [findInodeByName_of_not_dir (s := s.put s.disk t) hlt hd] at e2
    exact absurd (Prod.mk.inj e2).1.symm hr
  · exact hP.vacant

theorem WfState.doTouch_cases :
    (¬ Vacant s path ∧ ∃ t, doTouch s path = (neg1, s.put s.disk t)) ∨
    (Passed s path ∧ ∃ t, doTouch s path =
      touchAt (s.put s.disk t) (parentOf s path) (lastName path)) := by
  obtain ⟨t, e, ⟨hp, hsl, hv⟩ | ⟨hp, r, t2, e2, hr⟩⟩ := h.lookups h0
  · simp only [doTouch_eq, e, if_pos (And.intro hsl hp)]
    exact Or.inl ⟨hv, t, rfl⟩
  · simp only [doTouch_eq, e, if_neg (fun hc : slash ∈ path ∧ parentOf s path = neg1 => hp hc.2), e2]
    rcases hr with ⟨hr, hv⟩ | ⟨hr, hP⟩
    · rw [if_pos hr]
      exact Or.inl ⟨hv, t2, rfl⟩
    · rw [if_neg (not_not_intro hr)]
      exact Or.inr ⟨hP, t2, rfl⟩

theorem WfState.doMkdir_cases :
    (¬ Vacant s path ∧ ∃ t, doMkdir s path = (-1, s.put s.disk t)) ∨
    (Passed s path ∧ ∃ t, doMkdir s path =
      mkdirAt (s.put s.disk t) (parentOf s path) (lastName path)) := by
  obtain ⟨t, e, ⟨hp, hsl, hv⟩ | ⟨hp, r, t2, e2, hr⟩⟩ := h.lookups h0
  · simp only [doMkdir_eq, e, if_pos (And.intro hsl hp)]
    exact Or.inl ⟨hv, t, rfl⟩
  · simp only [doMkdir_eq, e, if_neg (fun hc : slash ∈ path ∧ parentOf s path = neg1 => hp hc.2), e2]
    rcases hr with ⟨hr, hv⟩ | ⟨hr, hP⟩
    · rw [if_pos hr]
      exact Or.inl ⟨hv, t2, rfl⟩
    · rw [if_neg (not_not_intro hr)]
      exact Or.inr ⟨hP, t2, rfl⟩

/-- The source of a link: a file. -/
def SourceOk (s : State) (path : CStr) : Prop :=
  (findInodeByPath s path).1 ≠ neg1 ∧ ¬ isDir s.disk (findInodeByPath s path).1

instance (s : State) (path : CStr) : Decidable (SourceOk s path) := by
  unfold SourceOk; infer_instance

theorem WfState.doLn_cases {src : CStr} (h1 : 0#8 ∉ src) :
    (¬ (SourceOk s src ∧ Vacant s path) ∧ ∃ t, doLn s src path = (-1, s.put s.disk t)) ∨
    (SourceOk s src ∧ imap s.disk (Fs.findInodeByPath s src).1 = true ∧ Passed s path ∧
      ∃ t, doLn s src path = linkAt (s.put s.disk t) (Fs.findInodeByPath s src).1
        (inode s.disk (Fs.findInodeByPath s src).1) (parentOf s path) (lastName path)) := by
  have hq := quiet_findInodeByPath s src
  obtain ⟨f, t, e, hf⟩ := h.findInodeByPath h1
  have hS : SourceOk s src ↔ f ≠ neg1 ∧ ¬ isDir s.disk f := by
    unfold SourceOk
    rw [e]
  rw [e] at hq ⊢
  dsimp only at hq ⊢
  have hpar := hq.parentOf path
  have hvac := hq.vacant path
  have h' := h.put_temp t
  simp only [doLn_eq, e]
  by_cases hfn : f = neg1
  · rw [if_pos hfn]
    exact Or.inl ⟨fun hc => (hS.mp hc.1).1 hfn, t, rfl⟩
  have hfm := hf.resolve_left hfn
  have hgi := getInode_eq (s.put s.disk t) (imap_lt hfm)
  rw [if_neg hfn, hgi]
  by_cases hfd : isDir s.disk f
  · rw [if_pos (show (inode (s.put s.disk t).disk f).type = fdDir from hfd)]
    exact Or.inl ⟨fun hc => (hS.mp hc.1).2 hfd, t, rfl⟩
  rw [if_neg (show ¬ (inode (s.put s.disk t).disk f).type = fdDir from hfd)]
  obtain ⟨t1, e1, ⟨hp, hsl, hv⟩ | ⟨hp, r, t2, e2, hr⟩⟩ := h'.lookups h0
  · simp only [e1, if_pos hp]
    exact Or.inl ⟨fun hc => hv (hvac.mpr hc.2), t1, rfl⟩
  · simp only [e1, if_neg hp, e2]
    rcases hr with ⟨hr, hv⟩ | ⟨hr, hP⟩
    · rw [if_pos hr]
      exact Or.inl ⟨fun hc => hv (hvac.mpr hc.2), t2, rfl⟩
    · rw [if_neg (not_not_intro hr)]
      refine Or.inr ⟨hS.mpr ⟨hfn, hfd⟩, hfm, ⟨hvac.mp hP.vacant, hpar ▸ hP.live, hpar ▸ hP.fresh⟩,
        t2, ?_⟩
      rw [← hpar]
      rfl

end Cases

/-! ## The new inode -/

theorem Wf.size_lt {d : Mem} (h : Wf d) {p : ℕ} (hp : imap d p = true) :
    (inode d p).size + 4096 < 2 ^ 32 := by
  by_cases hd : isDir d p
  · have hok := h.dirs p hp hd
    have hle := hok.blocks_le h.blk hp
    have := hok.size
    omega
  · have hsz := h.sizes p hp hd
    omega

theorem Wf.endBlock_lt {d : Mem} (h : Wf d) {p : ℕ} (hp : imap d p = true) :
    endBlock d p < maxBlocks := by
  unfold endBlock maxBlocks
  by_cases hd : isDir d p
  · have hok := h.dirs p hp hd
    have hle := hok.blocks_le h.blk hp
    rw [hok.numBlocks_eq hle rfl]
    omega
  · have hsz := h.sizes p hp hd
    unfold numBlocks
    simp only [blockSize]
    rw [u32_of_lt (by omega)]
    omega

/-- There is no free inode. -/
def InodesFull (d : Mem) : Prop := ∀ n < 4096, imap d n = true

instance (d : Mem) : Decidable (InodesFull d) := by unfold InodesFull; infer_instance

/-- The disk on which `do_touch` has written inode `n`. -/
def fileDisk (d : Mem) (n : ℕ) : Mem := putInode (setBit d imapBase n) n newFileInode

/-- The disk on which `do_touch` has written inode -1. -/
def farDisk (d : Mem) : Mem := blit d farBase newFileInode.encode 0 64

theorem Agree.intact {d d' : Mem} (h : Agree d d') (p : ℕ) : Intact p d d' :=
  ⟨h.imap p, h.inode p, fun b hb => h.block b (bmap_lt hb)⟩

section Born

variable {d : Mem} {n : ℕ} (hn : n < 4096)

include hn

theorem intact_fileDisk {p : ℕ} (hp : p ≠ n) : Intact p d (fileDisk d n) := by
  obtain ⟨h1, h2, -⟩ := observe_setImap d hn
  refine ⟨?_, ?_, fun b _ => ?_⟩
  · unfold fileDisk
    rw [imap_putInode, imap_setBit _ hn, decide_eq_false hp, Bool.false_or]
  · unfold fileDisk
    rw [inode_putInode_of_ne _ _ hp, h1]
  · unfold fileDisk
    rw [block_putInode _ _ hn, h2]

theorem freeCount_fileDisk : freeCount (fileDisk d n) = freeCount d :=
  freeCount_congr fun b => by
    unfold fileDisk
    rw [bmap_putInode, bmap_setImap _ hn]

end Born

/-- Which inode is free does not depend on `TEMP_BUF`. -/
theorem allocInode_put {s : State} (hv : s.sbValid = true) (t : Mem) :
    (allocInode (s.put s.disk t)).1 = (allocInode s).1 := by
  unfold allocInode allocIn
  rw [if_pos hv, if_pos (show (s.put s.disk t).sbValid = true from hv)]
  simp only [State.put_disk, State.put_sb]
  cases findClear s.disk (s.sb.startSector + s.sb.inodeMapOffset) inodeMapSectors <;> rfl

section Touch

variable {s : State} (h : WfState s) {path : CStr} (hP : Passed s path) (t : Mem)

include h hP

/-- `do_touch` with a free inode `n`. -/
theorem touchAt_free (hf : ¬ InodesFull s.disk) (x : CStr) :
    ∃ n s', n < 4096 ∧ imap s.disk n = false ∧ (allocInode s).1 = n ∧
      s' = s.put (fileDisk s.disk n) t ∧ SbOk s' ∧ Born n newFileInode s.disk s'.disk ∧
      imap s'.disk (parentOf s path) = true ∧ endBlock s'.disk (parentOf s path) < maxBlocks ∧
      touchAt (s.put s.disk t) (parentOf s path) x =
        (n, attach s' (parentOf s path) (mkDentry s.stack x n)) := by
  have e1 := allocInode_put h.valid t
  rcases allocInode_spec (h.put_temp t).sbOk with ⟨n, hn, hnd, e⟩ | ⟨hfull, -⟩
  swap
  · exact absurd hfull hf
  simp only [State.put_disk, State.put_temp, State.put_put] at hnd e
  obtain ⟨hB, -⟩ := born_file h.wf.blk hn hnd
  have hpn := hB.ne hP.live
  refine ⟨n, _, hn, hnd, by rw [← e1, e], rfl, h.sbOk.put (hB.sb h.wf.sb) t, hB,
    hB.imap_old hP.live, ?_, ?_⟩
  · rw [State.put_disk, (intact_fileDisk hn hpn).endBlock]
    exact h.wf.endBlock_lt hP.live
  · unfold touchAt
    simp only [e, writeInode_eq _ hn, State.put_disk, State.put_temp, State.put_put]
    rfl

/-- `do_touch` without a free inode. -/
theorem touchAt_full (hf : InodesFull s.disk) (x : CStr) :
    ∃ s', s' = (s.put (farDisk s.disk) t).fail ∧ SbOk s' ∧ Agree s.disk s'.disk ∧
      BlkInv s'.disk ∧ imap s'.disk (parentOf s path) = true ∧
      endBlock s'.disk (parentOf s path) < maxBlocks ∧
      touchAt (s.put s.disk t) (parentOf s path) x =
        (neg1, attach s' (parentOf s path) (mkDentry s.stack x neg1)) := by
  have hA : Agree s.disk (farDisk s.disk) := agree_writeFar _ _
  rcases allocInode_spec (h.put_temp t).sbOk with ⟨n, hn, hnd, -⟩ | ⟨-, e⟩
  · rw [State.put_disk, hf n hn] at hnd
    cases hnd
  refine ⟨_, rfl, ⟨h.valid, h.sb, hA.sb h.wf.sb⟩, hA, hA.inv h.wf.blk,
    (hA.imap _).trans hP.live, ?_, ?_⟩
  · rw [State.fail_disk, State.put_disk, (hA.intact _).endBlock]
    exact h.wf.endBlock_lt hP.live
  · unfold touchAt
    simp only [e, writeInode_neg1]
    rfl

end Touch

/-! ## The new directory -/

/-- One more link. -/
def bumpLinks (s : State) (n : ℕ) : State :=
  writeInode s n ((getInode s n).setNlinks ((getInode s n).nlinks + 1))

/-- The state in which `do_mkdir` comes to attach the entry: inode and block are written. -/
def mkdirState (s : State) (parent : ℕ) : State :=
  let (newInode, s) := allocInode s
  let (newBlock, s) := allocBlock s
  let s := writeInode s newInode (newDirInode newBlock)
  let s := s.setTemp (putDots (fill s.temp 0 0#8 blockSize) newInode parent)
  writeBlock s newBlock 0

theorem putInode_putInode (d : Mem) (n : ℕ) (x y : Inode) :
    putInode (putInode d n x) n y = putInode d n y := by
  funext a
  unfold putInode
  by_cases ha : itabBase + 64 * n ≤ a ∧ a < itabBase + 64 * n + 64
  · rw [blit_in_of_le ha.1 ha.2, blit_in_of_le ha.1 ha.2]
  · rw [blit_out (by omega), blit_out (by omega), blit_out (by omega)]

theorem allocIn_stack (s : State) (f : Superblock → ℕ) (n : ℕ) :
    (allocIn s f n).2.stack = s.stack := by
  unfold allocIn
  by_cases hv : s.sbValid = true
  · rw [if_pos hv]
    dsimp only
    split <;> rfl
  · rw [if_neg hv]
    dsimp only
    split <;> rfl

theorem mkdirAt_eq {s : State} {p : ℕ} (hp : p < 4096) (x : CStr) : mkdirAt s p x =
    (0, bumpLinks (attach (mkdirState s p) p (mkDentry s.stack x (allocInode s).1)) p) := by
  have h1 : (allocInode s).2.stack = s.stack := allocIn_stack ..
  have h2 : (allocBlock (allocInode s).2).2.stack = (allocInode s).2.stack := allocIn_stack ..
  unfold mkdirAt mkdirState
  generalize allocInode s = r at *
  obtain ⟨n, s1⟩ := r
  dsimp only at h1 h2 ⊢
  generalize allocBlock s1 = r at *
  obtain ⟨b, s2⟩ := r
  dsimp only at h1 h2 ⊢
  have h3 : (writeBlock ((writeInode s2 n (newDirInode b)).setTemp
      (putDots (fill (writeInode s2 n (newDirInode b)).temp 0 0#8 blockSize) n p)) b 0).stack =
        s.stack := h2.trans h1
  rw [h3]
  generalize writeBlock _ b 0 = s3
  unfold bumpLinks attach
  generalize appendDentry s3 (getInode s3 p) p (mkDentry s.stack x n) = r
  obtain ⟨node, u⟩ := r
  simp only [getInode_eq _ hp, writeInode_eq _ hp, State.put_disk, State.put_temp, State.put_put,
    inode_putInode_self _ _ hp, putInode_putInode]

/-- The disk on which `do_mkdir` has written inode `n` without a block: block -1 is the end of the
inode table. -/
def spoiltDisk (d : Mem) (n p : ℕ) (t : Mem) : Mem :=
  blit (putInode (setBit d imapBase n) n (newDirInode neg1)) (itabBase + 64 * 4032)
    (putDots (fill t 0 0#8 4096) n p) 0 4096

theorem writeBlock_neg1 (s : State) : writeBlock s neg1 0 =
    s.put (blit s.disk (itabBase + 64 * 4032) s.temp 0 4096) s.temp := by
  have e : 512 * blockSector neg1 = itabBase + 64 * 4032 := by
    unfold itabBase
    rfl
  unfold writeBlock
  simp only [sectorSize, blockSize]
  rw [e]
  rfl

section Mkdir

variable {s : State} (h : WfState s) {path : CStr} (t : Mem)

include h

/-- `do_mkdir` without a free inode. -/
theorem mkdirState_full (hf : InodesFull s.disk) :
    (allocInode s).1 = neg1 ∧
      (mkdirState (s.put s.disk t) (parentOf s path)).allocFailed = true := by
  have e1 := allocInode_put h.valid t
  rcases allocInode_spec (h.put_temp t).sbOk with ⟨n, hn, hnd, -⟩ | ⟨-, e⟩
  · rw [State.put_disk, hf n hn] at hnd
    cases hnd
  refine ⟨by rw [← e1, e], ?_⟩
  by_contra hc
  rw [Bool.not_eq_true] at hc
  have := allocBlock_failed (s := (allocInode (s.put s.disk t)).2) hc
  rw [e] at this
  cases this

/-- `do_mkdir` without a free block. -/
theorem mkdirState_spoilt (hf : ¬ InodesFull s.disk) (hz : freeCount s.disk = 0) :
    ∃ n t', n < 4096 ∧ imap s.disk n = false ∧ (allocInode s).1 = n ∧
      mkdirState (s.put s.disk t) (parentOf s path) =
        (s.put (spoiltDisk s.disk n (parentOf s path) t) t').fail := by
  have e1 := allocInode_put h.valid t
  rcases allocInode_spec (h.put_temp t).sbOk with ⟨n, hn, hnd, e⟩ | ⟨hfull, -⟩
  swap
  · exact absurd hfull hf
  simp only [State.put_disk, State.put_temp, State.put_put] at hnd e
  obtain ⟨-, -, i3⟩ := observe_setImap s.disk hn
  have hsb1 : SbOk (s.put (setBit s.disk imapBase n) t) := h.sbOk.put (i3 h.wf.sb) _
  rcases allocBlock_cases hsb1 with ⟨b, -, -, -, hc⟩ | ⟨-, e2⟩
  · rw [State.put_disk, freeCount_congr (fun b => bmap_setImap _ hn b)] at hc
    omega
  have hw : ∀ (s : State) (x : Inode), writeInode s.fail n x = (writeInode s n x).fail :=
    fun _ _ => rfl
  unfold mkdirState
  simp only [e, e2, hw, writeInode_eq _ hn, State.setTemp_eq, State.fail_temp,
    State.put_disk, State.put_temp, State.put_put, writeBlock_neg1, blockSize]
  exact ⟨n, _, hn, hnd, by rw [← e1, e], rfl⟩

/-- `do_mkdir` with an inode and a block. -/
theorem mkdirState_ok (hP : Passed s path) (hf : ¬ InodesFull s.disk) (hz : freeCount s.disk ≠ 0) :
    ∃ n b t' s', n < 4096 ∧ imap s.disk n = false ∧ (allocInode s).1 = n ∧ b < 131072 ∧
      bmap s.disk b = false ∧
      mkdirState (s.put s.disk t) (parentOf s path) = s' ∧
      s' = s.put (newDirDisk s.disk n b (putDots (fill t 0 0#8 4096) n (parentOf s path))) t' ∧
      SbOk s' ∧ Born n (newDirInode b) s.disk s'.disk ∧ freeCount s'.disk + 1 = freeCount s.disk ∧
      imap s'.disk (parentOf s path) = true ∧ Intact (parentOf s path) s.disk s'.disk ∧
      endBlock s'.disk (parentOf s path) < maxBlocks := by
  have e1 := allocInode_put h.valid t
  rcases allocInode_spec (h.put_temp t).sbOk with ⟨n, hn, hnd, e⟩ | ⟨hfull, -⟩
  swap
  · exact absurd hfull hf
  simp only [State.put_disk, State.put_temp, State.put_put] at hnd e
  obtain ⟨i1, i2, i3⟩ := observe_setImap s.disk hn
  have hsb1 : SbOk (s.put (setBit s.disk imapBase n) t) := h.sbOk.put (i3 h.wf.sb) _
  have hcount : freeCount (setBit s.disk imapBase n) = freeCount s.disk :=
    freeCount_congr fun b => bmap_setImap _ hn b
  rcases allocBlock_cases hsb1 with ⟨b, hb, hfree, e2, hleft⟩ | ⟨hz', -⟩
  swap
  · exact absurd (hcount.symm.trans hz') hz
  simp only [State.put_disk, State.put_temp, State.put_put] at hfree e2 hleft
  rw [bmap_setImap _ hn] at hfree
  obtain ⟨hB, -⟩ := born_dir h.wf.blk hn hnd hb hfree
    (putDots (fill t 0 0#8 4096) n (parentOf s path))
  have hpn := hB.ne hP.live
  obtain ⟨b1, b2, -⟩ := observe_setBmap (setBit s.disk imapBase n) hb
  have hI : Intact (parentOf s path) s.disk (newDirDisk s.disk n b
      (putDots (fill t 0 0#8 4096) n (parentOf s path))) := by
    refine ⟨?_, hB.inode_ne _ hpn, fun c hc => ?_⟩
    · rw [hB.imap, decide_eq_false hpn, Bool.false_or]
    · have hcb : c ≠ b := by
        rintro rfl
        rw [hfree] at hc
        cases hc
      unfold newDirDisk
      rw [block_putBlock_of_ne _ _ _ hcb, block_putInode _ _ hn, b2, i2]
  refine ⟨n, b, putDots (fill t 0 0#8 4096) n (parentOf s path), _, hn, hnd, by rw [← e1, e], hb,
    hfree, ?_, rfl, h.sbOk.put (hB.sb h.wf.sb) _, hB, ?_, hB.imap_old hP.live, hI, ?_⟩
  · unfold mkdirState
    simp only [e, e2, writeInode_eq _ hn, State.setTemp_eq, State.put_disk, State.put_temp,
      State.put_put, writeBlock_eq _ hb, blockSize]
    rfl
  · have hnew : freeCount (newDirDisk s.disk n b (putDots (fill t 0 0#8 4096) n (parentOf s path))) =
        freeCount (setBit (setBit s.disk imapBase n) bmapBase b) :=
      freeCount_congr fun c => (bmap_putBlock ..).trans (bmap_putInode ..)
    rw [State.put_disk, hnew]
    exact hleft.trans hcount
  · rw [State.put_disk, hI.endBlock]
    exact h.wf.endBlock_lt hP.live

end Mkdir

/-! ## The three calls -/

/-- A call that creates an entry. -/
inductive Creation where
  | mkdir (path : CStr)
  | touch (path : CStr)
  | ln (src path : CStr)

namespace Creation

/-- The path of the new entry. -/
def path : Creation → CStr
  | mkdir path => path
  | touch path => path
  | ln _ path => path

/-- The call, with the result as an `int`. -/
def run (s : State) : Creation → ℤ × State
  | mkdir path => doMkdir s path
  | touch path => (asInt (doTouch s path).1, (doTouch s path).2)
  | ln src path => doLn s src path

/-- The paths are C strings. -/
def Clean : Creation → Prop
  | mkdir path => 0#8 ∉ path
  | touch path => 0#8 ∉ path
  | ln src path => 0#8 ∉ src ∧ 0#8 ∉ path

/-- The lookups let the call pass. -/
def Passes (s : State) : Creation → Prop
  | mkdir path => Vacant s path
  | touch path => Vacant s path
  | ln src path => SourceOk s src ∧ Vacant s path

end Creation

/-- A call that is refused does nothing. -/
theorem WfState.creation_refused {s : State} (h : WfState s) {c : Creation} (hc : c.Clean)
    (hv : ¬ c.Passes s) : ∃ t, c.run s = (-1, s.put s.disk t) := by
  have hneg : asInt neg1 = -1 := by decide
  cases c with
  | mkdir path =>
    rcases h.doMkdir_cases hc with ⟨-, t, e⟩ | ⟨hP, -⟩
    · exact ⟨t, e⟩
    · exact absurd hP.vacant hv
  | touch path =>
    rcases h.doTouch_cases hc with ⟨-, t, e⟩ | ⟨hP, -⟩
    · refine ⟨t, ?_⟩
      show (asInt (doTouch s path).1, (doTouch s path).2) = _
      rw [e, hneg]
    · exact absurd hP.vacant hv
  | ln src path =>
    rcases h.doLn_cases hc.2 hc.1 with ⟨-, t, e⟩ | ⟨hS, -, hP, -⟩
    · exact ⟨t, e⟩
    · exact absurd ⟨hS, hP.vacant⟩ hv

/-- `do_mkdir` returns 0 once the lookups have let it pass. -/
theorem WfState.doMkdir_passed {s : State} (h : WfState s) {path : CStr} (h0 : 0#8 ∉ path)
    (hv : Vacant s path) : (doMkdir s path).1 = 0 := by
  rcases h.doMkdir_cases h0 with ⟨hn, -⟩ | ⟨-, t, e⟩
  · exact absurd hv hn
  · rw [e]
    rfl

theorem WfState.doLn_passed {s : State} (h : WfState s) {src path : CStr} (h1 : 0#8 ∉ src)
    (h0 : 0#8 ∉ path) (hS : SourceOk s src) (hv : Vacant s path) : (doLn s src path).1 = 0 := by
  rcases h.doLn_cases h0 h1 with ⟨hn, -⟩ | ⟨-, -, -, t, e⟩
  · exact absurd ⟨hS, hv⟩ hn
  · rw [e]
    rfl

/-- `do_touch` with a free inode returns a number that is not -1. -/
theorem WfState.doTouch_passed {s : State} (h : WfState s) {path : CStr} (h0 : 0#8 ∉ path)
    (hv : Vacant s path) (hf : ¬ InodesFull s.disk) : asInt (doTouch s path).1 ≠ -1 := by
  rcases h.doTouch_cases h0 with ⟨hn, -⟩ | ⟨hP, t, e⟩
  · exact absurd hv hn
  · obtain ⟨n, s', hn, -, -, -, -, -, -, -, e2⟩ := touchAt_free h hP t hf (lastName path)
    rw [e, e2]
    unfold asInt
    rw [if_pos (show n < 2 ^ 31 by omega)]
    omega

end RiscvKernel.Fs
