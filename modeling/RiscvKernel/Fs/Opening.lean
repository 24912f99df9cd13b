import RiscvKernel.Fs.Creation

/-!
# Descriptors for files that are not there

`do_open` takes the result of `do_touch`, -1 included, as an inode number and only checks that it is
not 0. Inode -1 is read far behind the file system; when the word found there says that it is a
file, and `do_touch` itself may have written it, `do_open` installs a descriptor for it.
`doOpen_real_iff` says when that does not happen.
-/

namespace RiscvKernel.Fs

open Lib

/-- A descriptor that `do_open` returns is for a file, and when there is no file and none can be
created, -1 is returned and no descriptor is changed. -/
structure OpensReal (s : State) (path : CStr) (r : ℤ × State) : Prop where
  real : 0 ≤ r.1 → (r.2.fdescArray r.1.toNat).inodeNum < numInodes ∧
    imap r.2.disk (r.2.fdescArray r.1.toNat).inodeNum = true ∧
    (inode r.2.disk (r.2.fdescArray r.1.toNat).inodeNum).type = fdFile
  refused : (findInodeByPath s path).1 = neg1 →
    (doTouch (findInodeByPath s path).2 path).1 = neg1 → r.1 = -1 ∧ r.2.fdescArray = s.fdescArray

/-- `do_open` comes to check the type of inode -1, finds a file there, and a descriptor is free. The
type is that on the disk when `do_touch` has refused the path, and the one `do_touch` has written
when there is no free inode. -/
def OpensFar (s : State) (path : CStr) (mode : ℕ) : Prop :=
  (findInodeByPath s path).1 = neg1 ∧ (mode = oRdwr ∨ mode = oWronly) ∧ allocFd s ≠ -1 ∧
    if Vacant s path then InodesFull s.disk else (farInode s.disk).type = fdFile

/-- The end of `do_open` with the number -1. -/
theorem openInode_neg1 {s u : State} {path : CStr} {mode : ℕ} (hu : (findInodeByPath s path).1 = neg1)
    (ht : (doTouch (findInodeByPath s path).2 path).1 = neg1) (hfd : allocFd u = allocFd s)
    (ha : u.fdescArray = s.fdescArray) :
    OpensReal s path (openInode u neg1 mode) ↔
      ¬ (allocFd s ≠ -1 ∧ (farInode u.disk).type = fdFile) := by
  unfold openInode
  rw [getInode_neg1, hfd]
  by_cases hty : (farInode u.disk).type = fdFile
  · rw [if_neg (not_not_intro hty)]
    by_cases hn : allocFd s = -1
    · rw [if_pos hn]
      exact iff_of_true ⟨fun h => by norm_num at h, fun _ _ => ⟨rfl, ha⟩⟩ fun hc => hc.1 hn
    · rw [if_neg hn]
      exact iff_of_false (fun hc => hn (hc.refused hu ht).1) (not_not_intro ⟨hn, hty⟩)
  · rw [if_pos hty]
    exact iff_of_true ⟨fun h => by norm_num at h, fun _ _ => ⟨rfl, ha⟩⟩ fun hc => hty hc.2

/-- The end of `do_open` with a marked inode. -/
theorem openInode_real {s u : State} {path : CStr} {mode n : ℕ} (hn : imap u.disk n = true)
    (hne : (findInodeByPath s path).1 = neg1 →
      (doTouch (findInodeByPath s path).2 path).1 ≠ neg1) :
    OpensReal s path (openInode u n mode) := by
  refine ⟨fun h => ?_, fun h1 h2 => absurd h2 (hne h1)⟩
  rcases openInode_spec (s := u) (imap_lt hn) mode with e | ⟨hty, -, e⟩
  · rw [e] at h
    norm_num at h
  · rw [e]
    simp only [Function.update_self]
    exact ⟨imap_lt hn, hn, hty⟩

/-- `do_open` opens files only, if and only if it does not come to open inode -1. -/
theorem doOpen_real_iff {s : State} (h : WfState s) {path : CStr} (h0 : 0#8 ∉ path) (mode : ℕ) :
    OpensReal s path (doOpen s path mode) ↔ ¬ OpensFar s path mode := by
  have hq := quiet_findInodeByPath s path
  obtain ⟨n, t, e, hn⟩ := h.findInodeByPath h0
  have hfar : OpensFar s path mode ↔ n = neg1 ∧ (mode = oRdwr ∨ mode = oWronly) ∧
      allocFd s ≠ -1 ∧ if Vacant s path then InodesFull s.disk
        else (farInode s.disk).type = fdFile := by
    unfold OpensFar
    rw [e]
  have hu : (findInodeByPath s path).1 = n := by rw [e]
  have ht : (findInodeByPath s path).2 = s.put s.disk t := by rw [e]
  rw [ht] at hq
  unfold doOpen
  simp only [e]
  by_cases hnn : n = neg1
  swap
  · rw [if_neg hnn]
    exact iff_of_true (openInode_real (u := s.put s.disk t) (hn.resolve_left hnn)
      fun hc => absurd (hu.symm.trans hc) hnn) fun hc => hnn (hfar.mp hc).1
  rw [if_pos hnn]
  by_cases hmode : mode = oRdwr ∨ mode = oWronly
  swap
  · rw [if_neg hmode]
    exact iff_of_true ⟨fun hc => by norm_num at hc, fun _ _ => ⟨rfl, rfl⟩⟩
      fun hc => hmode (hfar.mp hc).2.1
  rw [if_pos hmode]
  have hne : neg1 ≠ 0 := by decide
  have hfar' : OpensFar s path mode ↔ (allocFd s ≠ -1 ∧ if Vacant s path then InodesFull s.disk
      else (farInode s.disk).type = fdFile) :=
    hfar.trans ⟨fun hc => hc.2.2, fun hc => ⟨hnn, hmode, hc⟩⟩
  rcases (h.put_temp t).doTouch_cases h0 with ⟨hv, t1, e1⟩ | ⟨hP, t1, e1⟩
  · -- refused: inode -1 is what it was
    rw [hq.vacant] at hv
    simp only [State.put_disk, State.put_put] at e1
    rw [if_neg hv] at hfar'
    simp only [e1, if_neg hne]
    rw [openInode_neg1 (u := s.put s.disk t1) (hu.trans hnn) (by rw [ht, e1]) rfl rfl, hfar']
    rfl
  have hv := (hq.vacant path).mp hP.vacant
  simp only [State.put_disk, State.put_put] at e1
  rw [if_pos hv] at hfar'
  by_cases hf : InodesFull s.disk
  · -- `do_touch` has made inode -1 a file
    obtain ⟨s', hs', hsb, hA, hinv, hp, hk, e2⟩ := touchAt_full (h.put_temp t) hP t1 hf
      (lastName path)
    simp only [State.put_disk, State.put_put] at e2 hs'
    rw [e2] at e1
    obtain ⟨-, -, hfd, hfdt, -⟩ := attach_frame hp hsb hinv hk
      (mkDentry s.stack (lastName path) neg1)
    have hC := confined_attach hp hsb hinv hk (mkDentry s.stack (lastName path) neg1)
    simp only [State.put_stack] at e1
    simp only [e1, if_neg hne]
    rw [openInode_neg1 (hu.trans hnn) (by rw [ht, e1])
      (by unfold allocFd; rw [hfdt, hs']; rfl) (by rw [hfd, hs']; rfl), hfar',
      farInode_congr hC.far]
    have hty : (farInode s'.disk).type = fdFile := by
      rw [hs', State.fail_disk, State.put_disk, farDisk, farInode_write]
      rfl
    simp only [hty, hf]
  · obtain ⟨m, s', hm, hmd, -, hs', hsb, hB, hp, hk, e2⟩ := touchAt_free (h.put_temp t) hP t1 hf
      (lastName path)
    simp only [State.put_disk, State.put_put, State.put_stack] at e2 hs' hmd
    rw [e2] at e1
    obtain ⟨himap, -⟩ := attach_frame hp hsb hB.inv hk (mkDentry s.stack (lastName path) m)
    have hm0 : m ≠ 0 := by
      rintro rfl
      rw [show imap s.disk 0 = true from h.wf.tree.root_live] at hmd
      cases hmd
    simp only [e1, if_neg hm0]
    refine iff_of_true (openInode_real ?_ fun _ => ?_) fun hc => hf (hfar'.mp hc).2
    · rw [himap, hB.imap]
      simp
    · rw [ht, e1]
      exact ne_neg1 (by omega)

/-- On a new file system, for the path `a/b`. -/
theorem doOpen_real_boot :
    OpensReal (boot.load 0 fun _ => 0#8) [97#8, slash, 98#8]
      (doOpen (boot.load 0 fun _ => 0#8) [97#8, slash, 98#8] oRdwr) ↔
    ¬ OpensFar (boot.load 0 fun _ => 0#8) [97#8, slash, 98#8] oRdwr :=
  doOpen_real_iff (boot_start.wf.load 0 _) (by decide) oRdwr

/-- There is no directory `a`, so `do_touch` fails; descriptor 0 is for inode -1 then. -/
theorem doOpen_far :
    (findInodeByPath (boot.load 0 fun _ => 0#8) [97#8, slash, 98#8]).1 = neg1 ∧
    (doTouch (findInodeByPath (boot.load 0 fun _ => 0#8) [97#8, slash, 98#8]).2
      [97#8, slash, 98#8]).1 = neg1 ∧
    (doOpen (boot.load 0 fun _ => 0#8) [97#8, slash, 98#8] oRdwr).1 = 0 ∧
    ((doOpen (boot.load 0 fun _ => 0#8) [97#8, slash, 98#8] oRdwr).2.fdescArray 0).inodeNum = neg1 ∧
    ((doOpen (boot.load 0 fun _ => 0#8) [97#8, slash, 98#8] oRdwr).2.fdescArray 0).used = 1 := by
  decide +kernel

end RiscvKernel.Fs
