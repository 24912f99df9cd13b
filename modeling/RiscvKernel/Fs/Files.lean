import RiscvKernel.Fs.Mkfs

/-!
# Descriptors

`do_open`, `do_read`, `do_write`, `do_lseek`, `do_close` and `do_cd` on a well-formed disk. A read
delivers the bytes of the file, a write stores its buffer in the file and changes nothing else, and
the other calls leave the disk as it is, except for the file that `do_open` may create.
-/

namespace RiscvKernel.Fs

open Lib Lib.Forest

/-! ## Reading -/

/-- The number of bytes `do_read` delivers. -/
def readLen (size pos : ℕ) (length : ℤ) : ℕ := min length.toNat (size - pos)

theorem State.setPos_self (s : State) (fd : ℤ) : s.setPos fd (s.fdescArray fd.toNat).pos = s := by
  unfold State.setPos
  rw [show ({ s.fdescArray fd.toNat with pos := (s.fdescArray fd.toNat).pos } : Fdesc) =
    s.fdescArray fd.toNat from rfl, Function.update_eq_self]

section Open

variable {s : State} (h : Wf s.disk) {fd : ℤ} (ho : s.isOpen fd)
  (hl : imap s.disk (s.fdescArray fd.toNat).inodeNum = true)
  (hn : ¬ isDir s.disk (s.fdescArray fd.toNat).inodeNum)

include h ho hl hn

omit h hn in
/-- `do_read` delivers the bytes from the position on, as many as there are. Their number is an `int`: when there are
`2 ^ 31` or more, it is negative and nothing is delivered. -/
theorem doRead_bytes (hb : BlkInv s.disk) (hm : (s.fdescArray fd.toNat).mode ≠ oWronly) (buff : Mem) (length : ℤ) :
    ∃ (k : ℕ) (t buff' : Mem),
      k = (if (inode s.disk (s.fdescArray fd.toNat).inodeNum).size - (s.fdescArray fd.toNat).pos < 2 ^ 31 then
        readLen (inode s.disk (s.fdescArray fd.toNat).inodeNum).size (s.fdescArray fd.toNat).pos length else 0) ∧
      doRead s fd buff length =
        ((k : ℤ), buff', (s.put s.disk t).setPos fd ((s.fdescArray fd.toNat).pos + k)) ∧
      ∀ i, buff' i = if i < k then
        fileByte s.disk (s.fdescArray fd.toNat).inodeNum ((s.fdescArray fd.toNat).pos + i)
      else buff i := by
  have hf' := imap_lt hl
  unfold doRead
  rw [if_neg (not_not_intro ho)]
  simp only [if_neg hm, getInode_eq s hf']
  have hpos := State.setPos_self s fd
  generalize s.fdescArray fd.toNat = fdesc at *
  have hsz := (inode s.disk fdesc.inodeNum).lt.2.2.1
  unfold readLen
  by_cases hge : fdesc.pos ≥ (inode s.disk fdesc.inodeNum).size
  · rw [if_pos hge, show (inode s.disk fdesc.inodeNum).size - fdesc.pos = 0 by omega, Nat.min_zero, ite_self]
    exact ⟨0, s.temp, buff, rfl, by rw [Nat.add_zero, State.put_self, hpos]; rfl,
      fun i => by rw [if_neg (by omega)]⟩
  · rw [if_neg hge]
    have hlen : (if length < asInt ((inode s.disk fdesc.inodeNum).size - fdesc.pos) then length
        else asInt ((inode s.disk fdesc.inodeNum).size - fdesc.pos)).toNat =
        if (inode s.disk fdesc.inodeNum).size - fdesc.pos < 2 ^ 31 then
          min length.toNat ((inode s.disk fdesc.inodeNum).size - fdesc.pos) else 0 := by
      unfold asInt
      split_ifs <;> omega
    rw [hlen]
    generalize hk : (if (inode s.disk fdesc.inodeNum).size - fdesc.pos < 2 ^ 31 then
      min length.toNat ((inode s.disk fdesc.inodeNum).size - fdesc.pos) else 0) = k
    have hle : k ≤ (inode s.disk fdesc.inodeNum).size - fdesc.pos := by
      rw [← hk]
      split_ifs <;> omega
    obtain ⟨t, buff', e, hb⟩ := readLoop_spec fdesc.inodeNum k
      (inode s.disk fdesc.inodeNum) k 0 fdesc.pos buff s hb hl rfl (by omega) (by omega)
      (by omega)
    rw [e]
    refine ⟨k, t, buff', rfl, rfl, fun i => ?_⟩
    rw [hb i]
    simp only [Nat.zero_le, true_and, Nat.sub_zero]

/-- On a well-formed disk there are fewer than `2 ^ 31` bytes. -/
theorem doRead_spec (hm : (s.fdescArray fd.toNat).mode ≠ oWronly) (buff : Mem) (length : ℤ) :
    ∃ (k : ℕ) (t buff' : Mem),
      k = readLen (inode s.disk (s.fdescArray fd.toNat).inodeNum).size (s.fdescArray fd.toNat).pos
        length ∧
      doRead s fd buff length =
        ((k : ℤ), buff', (s.put s.disk t).setPos fd ((s.fdescArray fd.toNat).pos + k)) ∧
      ∀ i, buff' i = if i < k then
        fileByte s.disk (s.fdescArray fd.toNat).inodeNum ((s.fdescArray fd.toNat).pos + i)
      else buff i := by
  have hsz := h.sizes _ hl hn
  have hread := doRead_bytes ho hl h.blk hm buff length
  rwa [if_pos (by omega)] at hread

end Open

/-- `do_read` through a descriptor that is closed or not for reading. -/
theorem doRead_refused {s : State} {fd : ℤ} {buff : Mem} {length : ℤ}
    (h : ¬ (s.isOpen fd ∧ (s.fdescArray fd.toNat).mode ≠ oWronly)) :
    doRead s fd buff length = (-1, buff, s) := by
  unfold doRead
  by_cases ho : s.isOpen fd
  · rw [if_neg (not_not_intro ho)]
    exact if_pos (not_not.mp fun hm => h ⟨ho, hm⟩)
  · exact if_pos ho

/-! ## Writing -/

/-- `len` bytes of `buff` were written to inode `n` at `pos`. -/
structure Wrote (n pos len : ℕ) (buff d d' : Mem) : Prop where
  wf : Wf d'
  stored : Stored n pos len buff 0 d d'
  size : (inode d' n).size = if 0 < len then max (inode d n).size (pos + len) else (inode d n).size
  type : (inode d' n).type = (inode d n).type
  tree : nameTree d' = nameTree d

/-- A change of the contents and the size of a file. -/
theorem wf_write {d d' : Mem} (h : Wf d) {n : ℕ} (hn : ¬ isDir d n) (ho : Only n d d')
    (hty : (inode d' n).type = (inode d n).type) (hlk : (inode d' n).nlinks = (inode d n).nlinks)
    (hsz : (inode d' n).size < 2 ^ 31) : Wf d' ∧ nameTree d' = nameTree d := by
  have hty' : ∀ m, (inode d' m).type = (inode d m).type := fun m => by
    by_cases e : m = n
    · rw [e, hty]
    · rw [ho.inode_ne m e]
  have htree : nameTree d' = nameTree d := by
    apply NameTree.ext
    · funext m
      show (imap d' m = true) = (imap d m = true)
      rw [ho.imap]
    · funext m
      show isDir d' m = isDir d m
      unfold isDir
      rw [hty']
    · funext m
      show (inode d' m).nlinks = (inode d m).nlinks
      by_cases e : m = n
      · rw [e, hlk]
      · rw [ho.inode_ne m e]
    · funext σ
      show ent d' σ = ent d σ
      by_cases e : σ.1 = n
      · have hno : ∀ d : Mem, ¬ isDir d n → ent d σ = none := fun d hd => by
          unfold ent
          rw [if_neg]
          rintro ⟨-, h2, -⟩
          rw [e] at h2
          exact hd h2
        rw [hno d hn, hno d' (by unfold isDir; rw [hty]; exact hn)]
      · exact ho.ent_ne e
  refine ⟨⟨ho.sb h.sb, ho.inv, fun q hq hqd => ?_, fun m hm hmd => ?_, htree ▸ h.tree⟩, htree⟩
  · unfold isDir at hqd
    rw [hty'] at hqd
    have hqn : q ≠ n := by
      rintro rfl
      exact hn hqd
    rw [ho.imap] at hq
    exact ho.dirOk_ne hqn hq (h.dirs q hq hqd)
  · by_cases e : m = n
    · rw [e]
      exact hsz
    · unfold isDir at hmd
      rw [hty'] at hmd
      rw [ho.imap] at hm
      rw [ho.inode_ne m e]
      exact h.sizes m hm hmd

/-- `do_write` stores its buffer at the position of the descriptor. -/
theorem doWrite_spec {s : State} (h : Wf s.disk) (hs : SbOk s) {fd : ℤ} (ho : s.isOpen fd)
    (hl : imap s.disk (s.fdescArray fd.toNat).inodeNum = true)
    (hn : ¬ isDir s.disk (s.fdescArray fd.toNat).inodeNum)
    (hm : (s.fdescArray fd.toNat).mode ≠ oRdonly) {buff : Mem} {length : ℤ}
    (hpos : (s.fdescArray fd.toNat).pos + length.toNat < 2 ^ 31)
    (hf : (doWrite s fd buff length).2.allocFailed = false) :
    ∃ d t, doWrite s fd buff length =
        ((length.toNat : ℤ), (s.put d t).setPos fd ((s.fdescArray fd.toNat).pos + length.toNat)) ∧
      Wrote (s.fdescArray fd.toNat).inodeNum (s.fdescArray fd.toNat).pos length.toNat buff
        s.disk d := by
  have hf' := imap_lt hl
  have hsz := h.sizes _ hl hn
  unfold doWrite at hf ⊢
  rw [if_neg (not_not_intro ho)] at hf ⊢
  simp only [if_neg hm, getInode_eq s hf'] at hf ⊢
  generalize hfd : s.fdescArray fd.toNat = fdesc at *
  obtain ⟨d, t, node, e, hst, hptr, -, hty, hlk, hsize⟩ := writeLoop_spec fdesc.inodeNum
    length.toNat buff length.toNat 0 fdesc.pos (inode s.disk fdesc.inodeNum) s
    hs h.blk hl rfl (by omega) (by omega) (by omega) hf
  rw [Nat.sub_zero] at e hst hsize
  rw [e]
  have hl' : imap d fdesc.inodeNum = true := by rw [hst.only.imap]; exact hl
  have hst' := hst.putMeta hl (x := node) hptr
  have hself := inode_putInode_self d node hf'
  obtain ⟨hwf, htree⟩ := wf_write h hn hst'.only (by rw [hself, hty]) (by rw [hself, hlk])
    (by rw [hself, hsize]; split_ifs <;> omega)
  refine ⟨putInode d fdesc.inodeNum node, t, ?_, hwf, hst', by rw [hself, hsize],
    by rw [hself, hty], htree⟩
  simp only
  rw [writeInode_eq _ hf']
  rfl

/-- `do_write` through a descriptor that is closed or not for writing. -/
theorem doWrite_refused {s : State} {fd : ℤ} {buff : Mem} {length : ℤ}
    (h : ¬ (s.isOpen fd ∧ (s.fdescArray fd.toNat).mode ≠ oRdonly)) :
    doWrite s fd buff length = (-1, s) := by
  unfold doWrite
  by_cases ho : s.isOpen fd
  · rw [if_neg (not_not_intro ho)]
    exact if_pos (not_not.mp fun hm => h ⟨ho, hm⟩)
  · exact if_pos ho

/-! ## Opening -/

/-- What the callers of `do_open` have to see to: when it creates the file, the name fits, the parent
is a directory and the creation succeeds. -/
def OpenOk (s : State) (path : CStr) (mode : ℕ) : Prop :=
  (findInodeByPath s path).1 = neg1 → mode = oRdwr ∨ mode = oWronly →
    NameOk (lastName path) ∧
    ((splitParent (findInodeByPath s path).2 path).1 ≠ neg1 →
      isDir s.disk (splitParent (findInodeByPath s path).2 path).1) ∧
    (doTouch (findInodeByPath s path).2 path).1 ≠ neg1

instance (s : State) (path : CStr) (mode : ℕ) : Decidable (OpenOk s path mode) := by
  unfold OpenOk; infer_instance

/-- What `do_open` does to the disk: nothing, or inode `n` is a new empty file. -/
def Opened (n : ℕ) (d d' : Mem) : Prop :=
  d' = d ∨ (imap d n = false ∧ AddedRef d d' n 1 ∧ inode d' n = newFileInode)

/-- `alloc_fd` gives -1 or the number of a descriptor. -/
theorem allocFd_nonneg {s : State} (h : allocFd s ≠ -1) : 0 ≤ allocFd s := by
  unfold allocFd at h ⊢
  split
  · exact Int.natCast_nonneg _
  · next e => simp [e] at h

/-- The end of `do_open`. -/
theorem openInode_spec {s : State} {n : ℕ} (hn : n < 4096) (mode : ℕ) :
    openInode s n mode = (-1, s) ∨
    ((inode s.disk n).type = 0 ∧ 0 ≤ allocFd s ∧ openInode s n mode = (allocFd s, { s with
      fdescArray := Function.update s.fdescArray (allocFd s).toNat ⟨n, mode, 0, 1⟩ })) := by
  unfold openInode
  rw [getInode_eq s hn]
  by_cases ht : (inode s.disk n).type = fdFile
  · rw [if_neg (not_not_intro ht)]
    by_cases hfd : allocFd s = -1
    · exact Or.inl (if_pos hfd)
    · exact Or.inr ⟨ht, allocFd_nonneg hfd, if_neg hfd⟩
  · rw [if_pos ht]
    exact Or.inl rfl

/-- `do_open`: -1, or a descriptor for a file. -/
theorem doOpen_spec {s : State} (h : WfState s) {path : CStr} (h0 : 0#8 ∉ path) {mode : ℕ}
    (hok : OpenOk s path mode) (hf : (doOpen s path mode).2.allocFailed = false) :
    ∃ n d t, Opened n s.disk d ∧ (doOpen s path mode = (-1, s.put d t) ∨
      (imap d n = true ∧ ¬ isDir d n ∧ 0 ≤ allocFd s ∧
        doOpen s path mode = (allocFd s, { s.put d t with
          fdescArray := Function.update s.fdescArray (allocFd s).toNat ⟨n, mode, 0, 1⟩ }))) := by
  obtain ⟨n, t, e1, hn1⟩ := h.findInodeByPath h0
  unfold OpenOk at hok
  unfold doOpen at hf ⊢
  simp only [e1] at hok hf ⊢
  have hdir : ∀ {d : Mem} {n : ℕ}, (inode d n).type = 0 → ¬ isDir d n := by
    intro d n h1 h2
    unfold isDir at h2
    rw [h1] at h2
    cases h2
  by_cases hnn : n = neg1
  · subst hnn
    simp only [if_true] at hf ⊢
    by_cases hmode : mode = oRdwr ∨ mode = oWronly
    · rw [if_pos hmode] at hf ⊢
      obtain ⟨k1, k2, k3⟩ := hok rfl hmode
      have hf1 : (doTouch (s.put s.disk t) path).2.allocFailed = false := by
        by_cases hz : (doTouch (s.put s.disk t) path).1 = 0
        · simp only [hz, if_true] at hf
          exact hf
        · simp only [hz, if_false] at hf
          unfold openInode at hf
          dsimp only at hf
          split_ifs at hf <;> exact hf
      rcases doTouch_spec (h.put_temp t) h0 k1 k2 hf1 with
        ⟨t', e2⟩ | ⟨n, d, t', e2, hnd, hA, hin, -⟩
      · rw [e2] at k3
        exact absurd rfl k3
      · simp only [State.put_disk, State.put_put] at e2 hnd hA
        have hnm : imap d n = true := by rw [hA.imap]; simp
        have hn0 : n ≠ 0 := by
          rintro rfl
          rw [show imap s.disk 0 = true from h.wf.tree.root_live] at hnd
          cases hnd
        simp only [e2, hn0, if_false]
        refine ⟨n, d, t', Or.inr ⟨hnd, hA, hin⟩, ?_⟩
        rcases openInode_spec (s := s.put d t') (imap_lt hnm) mode with e3 | ⟨-, hfd, e3⟩
        · exact Or.inl e3
        · exact Or.inr ⟨hnm, hdir (by rw [hin]; rfl), hfd, e3⟩
    · rw [if_neg hmode]
      exact ⟨neg1, s.disk, t, Or.inl rfl, Or.inl rfl⟩
  · simp only [hnn, if_false]
    have hnm := hn1.resolve_left hnn
    refine ⟨n, s.disk, t, Or.inl rfl, ?_⟩
    rcases openInode_spec (s := s.put s.disk t) (imap_lt hnm) mode with e3 | ⟨hty, hfd, e3⟩
    · exact Or.inl e3
    · exact Or.inr ⟨hnm, hdir hty, hfd, e3⟩

/-! ## The working directory -/

/-- `do_cd`: the directory the path names becomes the working directory. -/
theorem doCd_spec {s : State} (h : WfState s) {path : CStr} (h0 : 0#8 ∉ path) :
    (∃ r t, r ≠ 0 ∧ doCd s path = (r, s.put s.disk t)) ∨
    (∃ n t, doCd s path = (0, { s.put s.disk t with dirInode := n }) ∧
      n = (findInodeByPath s path).1 ∧ imap s.disk n = true ∧ isDir s.disk n) := by
  obtain ⟨n, t, e1, hn1⟩ := h.findInodeByPath h0
  unfold doCd
  simp only [e1]
  by_cases hnn : n = neg1
  · rw [if_pos hnn]
    exact Or.inl ⟨-1, t, by decide, rfl⟩
  · rw [if_neg hnn]
    have hnm := hn1.resolve_left hnn
    rw [getInode_eq _ (imap_lt hnm), State.put_disk]
    by_cases hd : (inode s.disk n).type = fdDir
    · rw [if_neg (not_not_intro hd)]
      exact Or.inr ⟨n, t, rfl, rfl, hnm, hd⟩
    · rw [if_pos hd]
      exact Or.inl ⟨1, t, by decide, rfl⟩

end RiscvKernel.Fs
