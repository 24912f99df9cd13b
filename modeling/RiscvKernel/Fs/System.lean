import RiscvKernel.Lib.Run
import RiscvKernel.Fs.Files

/-!
# The file system as a system of processes

The disk, the superblock in memory and the descriptor tables are shared; every process has its own
working directory and its own `TEMP_BUF`. A step is one call of one process, or a process starting
another one, which inherits its working directory.

`SysWf` is the invariant of the system, and `step_wf` says that every step keeps it that meets the
conditions `Call.Ok` and `Call.Safe`.
-/

namespace RiscvKernel.Fs

open Lib

/-! ## Processes and calls -/

/-- A process as far as the file system goes. -/
structure Proc where
  dirInode : ℕ
  temp : Mem

/-- The state of the system. -/
structure Sys where
  disk : Mem
  sb : Superblock
  sbValid : Bool
  fdescArray : ℕ → Fdesc
  fdescArrayTools : ℕ → Fdesc
  proc : ℕ → Proc

/-- The state that a call of process `p` works on; `stack` is what its kernel stack contains. -/
def Sys.load (y : Sys) (p : ℕ) (stack : Mem) : State where
  disk := y.disk
  temp := (y.proc p).temp
  stack := stack
  sb := y.sb
  sbValid := y.sbValid
  fdescArray := y.fdescArray
  fdescArrayTools := y.fdescArrayTools
  dirInode := (y.proc p).dirInode
  allocFailed := false

/-- The system after a call of process `p` that ends in state `s`. -/
def Sys.save (y : Sys) (p : ℕ) (s : State) : Sys where
  disk := s.disk
  sb := s.sb
  sbValid := s.sbValid
  fdescArray := s.fdescArray
  fdescArrayTools := s.fdescArrayTools
  proc := Function.update y.proc p ⟨s.dirInode, s.temp⟩

/-- The calls with their arguments. -/
inductive Op
  | mkdir (path : CStr)
  | touch (path : CStr)
  | ln (src dst : CStr)
  | rm (path : CStr)
  | rmdir (path : CStr)
  | cd (path : CStr)
  | open (path : CStr) (mode : ℕ)
  | read (fd : ℤ) (buff : Mem) (length : ℤ)
  | write (fd : ℤ) (buff : Mem) (length : ℤ)
  | close (fd : ℤ)
  | lseek (fd offset whence : ℤ)

/-- The result and the state of a call. -/
def Op.exec (s : State) : Op → ℤ × State
  | mkdir path => doMkdir s path
  | touch path => (asInt (doTouch s path).1, (doTouch s path).2)
  | ln src dst => doLn s src dst
  | rm path => doRm s path
  | rmdir path => doRmdir s path
  | cd path => doCd s path
  | .open path mode => doOpen s path mode
  | read fd buff length => ((doRead s fd buff length).1, (doRead s fd buff length).2.2)
  | write fd buff length => doWrite s fd buff length
  | close fd => doClose s fd
  | lseek fd offset whence => doLseek s fd offset whence

/-- One step of the system. -/
inductive Call
  /-- process `p` makes a call -/
  | fs (p : ℕ) (stack : Mem) (op : Op)
  /-- process `p` starts process `child` -/
  | spawn (p child : ℕ) (temp : Mem)

/-- The system after a step. -/
def Sys.step (y : Sys) : Call → Sys
  | .fs p stack op => y.save p (op.exec (y.load p stack)).2
  | .spawn p child temp =>
    { y with proc := Function.update y.proc child ⟨(y.proc p).dirInode, temp⟩ }

/-- The result of a step. -/
def Sys.ret (y : Sys) : Call → ℤ
  | .fs p stack op => (op.exec (y.load p stack)).1
  | .spawn .. => 0

/-- The system after `do_mkfs` has run in process `p`, on any disk: no descriptor is open and all
working directories are the root. -/
structure Sys.Start (y : Sys) : Prop where
  mkfs : ∃ s, (doMkfs s).1 = 0 ∧ y.disk = (doMkfs s).2.disk ∧ y.sb = (doMkfs s).2.sb ∧
    y.sbValid = (doMkfs s).2.sbValid
  closed : ∀ fd, (y.fdescArray fd).used = 0
  tools : ∀ fd, (y.fdescArrayTools fd).used = 0
  root : ∀ p, (y.proc p).dirInode = rootInodeNum

/-- A machine with an empty disk before `do_mkfs`. -/
def blankState : State where
  disk := fun _ => 0#8
  temp := fun _ => 0#8
  stack := fun _ => 0#8
  sb := Superblock.decode fun _ => 0#8
  sbValid := false
  fdescArray := fun _ => ⟨0, 0, 0, 0⟩
  fdescArrayTools := fun _ => ⟨0, 0, 0, 0⟩
  dirInode := 0
  allocFailed := false

/-- The system made by `do_mkfs` on an empty disk. -/
def boot : Sys where
  disk := (doMkfs blankState).2.disk
  sb := (doMkfs blankState).2.sb
  sbValid := (doMkfs blankState).2.sbValid
  fdescArray := blankState.fdescArray
  fdescArrayTools := blankState.fdescArrayTools
  proc := fun _ => ⟨0, fun _ => 0#8⟩

theorem boot_start : boot.Start :=
  ⟨⟨blankState, by decide +kernel, rfl, rfl, rfl⟩, fun _ => rfl, fun _ => rfl, fun _ => rfl⟩

/-! ## Conditions -/

/-- The parent that the path names is a directory. -/
def ParentOk (s : State) (path : CStr) : Prop :=
  (splitParent s path).1 ≠ neg1 → isDir s.disk (splitParent s path).1

instance (s : State) (path : CStr) : Decidable (ParentOk s path) := by
  unfold ParentOk; infer_instance

/-- A lookup before the path split does not change the disk. -/
theorem ParentOk.of_find {s : State} {src path : CStr} (h : ParentOk (findInodeByPath s src).2 path)
    (hs : WfState s) (h0 : 0#8 ∉ src) :
    (splitParent (findInodeByPath s src).2 path).1 ≠ neg1 →
      isDir s.disk (splitParent (findInodeByPath s src).2 path).1 := by
  obtain ⟨f, t, ef, -⟩ := hs.findInodeByPath h0
  unfold ParentOk at h
  rw [ef] at h ⊢
  exact h

/-- The conditions on a call: paths are strings, created names have 1 to 15 bytes, parents are
directories, `do_open` names a file or creates one, positions stay below `2 ^ 31`, and no allocation
fails. -/
def Op.Ok (s : State) : Op → Prop
  | mkdir path => 0#8 ∉ path ∧ NameOk (lastName path) ∧ ParentOk s path ∧
      (doMkdir s path).2.allocFailed = false
  | touch path => 0#8 ∉ path ∧ NameOk (lastName path) ∧ ParentOk s path ∧
      (doTouch s path).2.allocFailed = false
  | ln src dst => 0#8 ∉ src ∧ 0#8 ∉ dst ∧ NameOk (lastName dst) ∧
      ParentOk (findInodeByPath s src).2 dst ∧ (doLn s src dst).2.allocFailed = false
  | rm path => 0#8 ∉ path
  | rmdir path => 0#8 ∉ path
  | cd path => 0#8 ∉ path
  | .open path mode => 0#8 ∉ path ∧ OpenOk s path mode ∧
      (doOpen s path mode).2.allocFailed = false
  | read .. => True
  | write fd buff length => (s.fdescArray fd.toNat).pos + length.toNat < 2 ^ 31 ∧
      (doWrite s fd buff length).2.allocFailed = false
  | close _ => True
  | lseek .. => True

instance (s : State) (op : Op) : Decidable (op.Ok s) := by
  cases op <;> (unfold Op.Ok; infer_instance)

/-- The conditions on every step. -/
def Call.Ok (y : Sys) : Call → Prop
  | .fs p stack op => op.Ok (y.load p stack)
  | .spawn .. => True

instance (y : Sys) (c : Call) : Decidable (c.Ok y) := by
  cases c <;> (unfold Call.Ok; infer_instance)

/-- The conditions on removals: the walk over a file's blocks comes down to these blocks, no
descriptor is open on a file whose last link is removed, a directory is not removed through its own
`.` and has no index blocks, and it is nobody's working directory. -/
def Call.Safe (y : Sys) : Call → Prop
  | .fs p stack (.rm path) => RmSafe (y.load p stack) path ∧
      ∀ σ f, σ.1 = (splitParent (y.load p stack) path).1 →
        ent y.disk σ = some (lastName path, f) → (inode y.disk f).nlinks = 1 →
        ∀ fd < numFdescs, (y.fdescArray fd).used ≠ 0 → (y.fdescArray fd).inodeNum ≠ f
  | .fs p stack (.rmdir path) => RmdirSafe (y.load p stack) path ∧
      ∀ σ n, σ.1 = (splitParent (y.load p stack) path).1 →
        ent y.disk σ = some (lastName path, n) → ∀ q, (y.proc q).dirInode ≠ n
  | _ => True

/-! ## The invariant -/

/-- The invariant of the system. -/
structure SysWf (y : Sys) : Prop where
  valid : y.sbValid = true
  sb : y.sb = mkfsSb
  wf : Wf y.disk
  cwd : ∀ p, imap y.disk (y.proc p).dirInode = true ∧ isDir y.disk (y.proc p).dirInode
  fds : ∀ fd < numFdescs, (y.fdescArray fd).used ≠ 0 →
    imap y.disk (y.fdescArray fd).inodeNum = true ∧ ¬ isDir y.disk (y.fdescArray fd).inodeNum

theorem SysWf.load {y : Sys} (h : SysWf y) (p : ℕ) (stack : Mem) : WfState (y.load p stack) :=
  ⟨h.valid, h.sb, h.wf, h.cwd p⟩

theorem Sys.Start.wf {y : Sys} (h : y.Start) : SysWf y := by
  obtain ⟨s, h0, h1, h2, h3⟩ := h.mkfs
  obtain ⟨d, t, e, hN⟩ := doMkfs_spec h0
  rw [e] at h1 h2 h3
  simp only [State.put_disk, State.put_sb, State.put_sbValid] at h1 h2 h3
  refine ⟨h3, h2, h1 ▸ hN.wf, fun p => ?_, fun fd _ hu => absurd (h.closed fd) hu⟩
  rw [h.root p, h1]
  exact ⟨hN.wf.tree.root_live, hN.wf.tree.root_dir⟩

/-- The objects that are not `gone` are still there, and they are what they were. -/
def Keeps (gone : ℕ → Prop) (d d' : Mem) : Prop :=
  ∀ m, imap d m = true → ¬ gone m → imap d' m = true ∧ (isDir d' m ↔ isDir d m)

theorem AddedRef.keeps {d d' : Mem} {f k : ℕ} (h : AddedRef d d' f k)
    (hf : Fs.imap d f = false ∨ ¬ isDir d f) : Keeps (fun _ => False) d d' := by
  intro m hm _
  obtain ⟨σ, x, -, ht⟩ := h.tree
  have hd : (nameTree d').dir m = (m ≠ f ∧ isDir d m) := by rw [ht]; rfl
  refine ⟨by rw [h.imap, hm, Bool.or_true], ?_⟩
  change isDir d' m = _ at hd
  rw [hd]
  refine and_iff_right_of_imp ?_
  rintro hmd rfl
  rcases hf with h1 | h1
  · rw [hm] at h1
    cases h1
  · exact h1 hmd

theorem AddedDir.isDir_iff {d d' : Mem} {n : ℕ} (h : AddedDir d d' n) (m : ℕ) :
    isDir d' m ↔ m = n ∨ isDir d m := by
  obtain ⟨σ, x, -, ht⟩ := h.tree
  have hd : (nameTree d').dir m = (m = n ∨ isDir d m) := by rw [ht]; rfl
  exact Iff.of_eq hd

theorem AddedDir.keeps {d d' : Mem} {n : ℕ} (h : AddedDir d d' n) :
    Keeps (fun _ => False) d d' := by
  intro m hm _
  refine ⟨by rw [h.imap, hm, Bool.or_true], ?_⟩
  rw [h.isDir_iff]
  refine or_iff_right ?_
  rintro rfl
  rw [h.dead] at hm
  cases hm

theorem RemovedRef.keeps {d d' : Mem} {f : ℕ} (h : RemovedRef d d' f) :
    Keeps (fun m => m = f ∧ (inode d f).nlinks = 1) d d' := by
  intro m hm hg
  obtain ⟨σ, x, -, ht⟩ := h.tree
  have hd : (nameTree d').dir m = isDir d m := by rw [ht]; rfl
  exact ⟨(h.imap m).mpr ⟨hm, fun e hl => hg ⟨e, hl⟩⟩, by rw [← hd]; rfl⟩

theorem RemovedDir.keeps {d d' : Mem} {n : ℕ} (h : RemovedDir d d' n) :
    Keeps (fun m => m = n) d d' := by
  intro m hm hg
  obtain ⟨σ, -, -, ht⟩ := h.tree
  have hd : (nameTree d').dir m = isDir d m := by rw [ht]; rfl
  exact ⟨(h.imap m).mpr ⟨hm, hg⟩, by rw [← hd]; rfl⟩

theorem Wrote.keeps {n pos len : ℕ} {buff d d' : Mem} (h : Wrote n pos len buff d d') :
    Keeps (fun _ => False) d d' := by
  intro m hm _
  have hd : (nameTree d').dir m = isDir d m := by rw [h.tree]; rfl
  exact ⟨by rw [h.stored.only.imap, hm], by rw [← hd]; rfl⟩

theorem Opened.keeps {n : ℕ} {d d' : Mem} (h : Opened n d d') : Keeps (fun _ => False) d d' := by
  rcases h with rfl | ⟨h1, h2, -⟩
  · exact fun _ hm _ => ⟨hm, Iff.rfl⟩
  · exact h2.keeps (Or.inl h1)

section Step

variable {y : Sys} (h : SysWf y)

include h

/-- A call that changes the disk, and `TEMP_BUF`, and nothing else. -/
theorem SysWf.put (p : ℕ) (stack : Mem) {gone : ℕ → Prop} {d t : Mem} (hwf : Wf d)
    (hk : Keeps gone y.disk d) (hc : ∀ q, ¬ gone (y.proc q).dirInode)
    (hfd : ∀ fd < numFdescs, (y.fdescArray fd).used ≠ 0 → ¬ gone (y.fdescArray fd).inodeNum) :
    SysWf (y.save p ((y.load p stack).put d t)) := by
  refine ⟨h.valid, h.sb, hwf, fun q => ?_, fun fd hlt hu => ?_⟩
  · have hq : ((y.save p ((y.load p stack).put d t)).proc q).dirInode = (y.proc q).dirInode := by
      show (Function.update y.proc p _ q).dirInode = _
      rw [Function.update_apply]
      split_ifs with e
      · rw [e]
        rfl
      · rfl
    rw [hq]
    obtain ⟨h1, h2⟩ := hk _ (h.cwd q).1 (hc q)
    exact ⟨h1, h2.mpr (h.cwd q).2⟩
  · obtain ⟨h1, h2⟩ := h.fds fd hlt hu
    obtain ⟨h3, h4⟩ := hk _ h1 (hfd fd hlt hu)
    exact ⟨h3, fun h5 => h2 (h4.mp h5)⟩

/-- A call that only reads. -/
theorem SysWf.quiet (p : ℕ) (stack t : Mem) : SysWf (y.save p ((y.load p stack).put y.disk t)) :=
  h.put p stack h.wf (show Keeps (fun _ => False) _ _ from fun _ hm _ => ⟨hm, Iff.rfl⟩) (fun _ => id)
    fun _ _ _ => id

/-- A call that changes one descriptor. -/
theorem SysWf.setFd (fd : ℕ) (v : Fdesc)
    (hv : v.used ≠ 0 → imap y.disk v.inodeNum = true ∧ ¬ isDir y.disk v.inodeNum) :
    SysWf { y with fdescArray := Function.update y.fdescArray fd v } := by
  refine ⟨h.valid, h.sb, h.wf, h.cwd, fun i hlt hu => ?_⟩
  simp only [Function.update_apply] at hu ⊢
  split_ifs at hu ⊢ with e
  · exact hv hu
  · exact h.fds i hlt hu

theorem SysWf.isOpen {p : ℕ} {stack : Mem} {fd : ℤ} (ho : (y.load p stack).isOpen fd) :
    imap y.disk (y.fdescArray fd.toNat).inodeNum = true ∧
      ¬ isDir y.disk (y.fdescArray fd.toNat).inodeNum := by
  obtain ⟨h1, h2, h3⟩ := ho
  exact h.fds fd.toNat (by simp only [numFdescs] at h2 ⊢; omega) h3

/-- `fdesc_array[fd].pos = pos` in an open descriptor. -/
theorem SysWf.setPos {p : ℕ} {stack : Mem} {fd : ℤ} (ho : (y.load p stack).isOpen fd) {d t : Mem}
    (pos : ℕ) (h' : SysWf (y.save p ((y.load p stack).put d t)))
    (hk : Keeps (fun _ => False) y.disk d) :
    SysWf (y.save p (((y.load p stack).put d t).setPos fd pos)) := by
  obtain ⟨h1, h2⟩ := h.isOpen ho
  obtain ⟨h3, h4⟩ := hk _ h1 id
  exact h'.setFd fd.toNat { y.fdescArray fd.toNat with pos := pos }
    fun _ => ⟨h3, fun h5 => h2 (h4.mp h5)⟩

theorem SysWf.write {p : ℕ} {stack : Mem} {fd : ℤ} {buff : Mem} {length : ℤ}
    (hok : (Op.write fd buff length).Ok (y.load p stack)) :
    SysWf (y.save p (doWrite (y.load p stack) fd buff length).2) := by
  by_cases ho : (y.load p stack).isOpen fd ∧ (y.fdescArray fd.toNat).mode ≠ oRdonly
  · obtain ⟨h1, h2⟩ := h.isOpen ho.1
    obtain ⟨d, t, e, hW⟩ := doWrite_spec (h.load p stack).wf (h.load p stack).sbOk ho.1 h1 h2 ho.2
      hok.1 hok.2
    rw [e]
    exact h.setPos ho.1 _ (h.put p stack hW.wf hW.keeps (fun _ => id) fun _ _ _ => id) hW.keeps
  · rw [doWrite_refused ho]
    exact h.quiet p stack _

theorem SysWf.read {p : ℕ} {stack : Mem} (fd : ℤ) (buff : Mem) (length : ℤ) :
    SysWf (y.save p (doRead (y.load p stack) fd buff length).2.2) := by
  by_cases ho : (y.load p stack).isOpen fd ∧ (y.fdescArray fd.toNat).mode ≠ oWronly
  · obtain ⟨h1, h2⟩ := h.isOpen ho.1
    obtain ⟨k, t, buff', -, e, -⟩ := doRead_spec (h.load p stack).wf ho.1 h1 h2 ho.2 buff length
    rw [e]
    exact h.setPos ho.1 _ (h.quiet p stack t) fun _ hm _ => ⟨hm, Iff.rfl⟩
  · rw [doRead_refused ho]
    exact h.quiet p stack _

theorem SysWf.open {p : ℕ} {stack : Mem} {path : CStr} {mode : ℕ}
    (hok : (Op.open path mode).Ok (y.load p stack)) :
    SysWf (y.save p (doOpen (y.load p stack) path mode).2) := by
  obtain ⟨h0, h1, h2⟩ := hok
  obtain ⟨n, d, t, hO, he⟩ := doOpen_spec (h.load p stack) h0 h1 h2
  have hk := hO.keeps
  have hwf : Wf d := by
    rcases hO with rfl | ⟨-, hA, -⟩
    · exact h.wf
    · exact hA.wf
  have hp : SysWf (y.save p ((y.load p stack).put d t)) :=
    h.put p stack hwf hk (fun _ => id) fun _ _ _ => id
  rcases he with e | ⟨h3, h4, -, e⟩
  · rw [e]
    exact hp
  · rw [e]
    exact hp.setFd _ _ fun _ => ⟨h3, h4⟩

theorem SysWf.close {p : ℕ} {stack : Mem} (fd : ℤ) :
    SysWf (y.save p (doClose (y.load p stack) fd).2) := by
  by_cases ho : (y.load p stack).isOpen fd
  · have e : doClose (y.load p stack) fd = (0, { y.load p stack with
        fdescArray := Function.update y.fdescArray fd.toNat
          { y.fdescArray fd.toNat with used := 0, pos := 0 } }) := if_neg (not_not_intro ho)
    rw [e]
    exact (h.quiet p stack _).setFd fd.toNat _ fun hu => absurd rfl hu
  · have e : doClose (y.load p stack) fd = (-1, y.load p stack) := if_pos ho
    rw [e]
    exact h.quiet p stack _

theorem SysWf.lseek {p : ℕ} {stack : Mem} (fd offset whence : ℤ) :
    SysWf (y.save p (doLseek (y.load p stack) fd offset whence).2) := by
  by_cases ho : (y.load p stack).isOpen fd
  · have hs : ∀ pos, SysWf (y.save p ((y.load p stack).setPos fd pos)) := fun pos =>
      h.setPos ho pos (h.quiet p stack _) fun _ hm _ => ⟨hm, Iff.rfl⟩
    unfold doLseek
    rw [if_neg (not_not_intro ho)]
    dsimp only
    split_ifs
    · exact hs _
    · exact hs _
    · exact hs _
    · exact h.quiet p stack _
  · have e : doLseek (y.load p stack) fd offset whence = (-1, y.load p stack) := if_pos ho
    rw [e]
    exact h.quiet p stack _

theorem SysWf.cd {p : ℕ} {stack : Mem} {path : CStr} (h0 : 0#8 ∉ path) :
    SysWf (y.save p (doCd (y.load p stack) path).2) := by
  rcases doCd_spec (h.load p stack) h0 with ⟨r, t, -, e⟩ | ⟨n, t, e, -, h1, h2⟩
  · rw [e]
    exact h.quiet p stack t
  · rw [e]
    have hq := h.quiet p stack t
    refine ⟨hq.valid, hq.sb, hq.wf, fun q => ?_, hq.fds⟩
    show imap y.disk (Function.update y.proc p _ q).dirInode = true ∧
      isDir y.disk (Function.update y.proc p _ q).dirInode
    rw [Function.update_apply]
    split_ifs
    · exact ⟨h1, h2⟩
    · exact h.cwd q

/-- Every step that meets its conditions keeps the invariant. -/
theorem step_wf {c : Call} (hok : c.Ok y) (hsafe : c.Safe y) : SysWf (y.step c) := by
  cases c with
  | spawn p child temp =>
    refine ⟨h.valid, h.sb, h.wf, fun q => ?_, h.fds⟩
    show imap y.disk (Function.update y.proc child _ q).dirInode = true ∧
      isDir y.disk (Function.update y.proc child _ q).dirInode
    rw [Function.update_apply]
    split_ifs
    · exact h.cwd p
    · exact h.cwd q
  | fs p stack op =>
    have hl := h.load p stack
    cases op with
    | mkdir path =>
      obtain ⟨h0, h1, h2, h3⟩ := hok
      rcases doMkdir_spec hl h0 h1 h2 h3 with ⟨t, e⟩ | ⟨n, d, t, e, hA⟩
      · show SysWf (y.save p (doMkdir _ path).2)
        rw [e]
        exact h.quiet p stack t
      · show SysWf (y.save p (doMkdir _ path).2)
        rw [e]
        exact h.put p stack hA.wf hA.keeps (fun _ => id) fun _ _ _ => id
    | touch path =>
      obtain ⟨h0, h1, h2, h3⟩ := hok
      rcases doTouch_spec hl h0 h1 h2 h3 with ⟨t, e⟩ | ⟨n, d, t, e, hn, hA, -⟩
      · show SysWf (y.save p (doTouch _ path).2)
        rw [e]
        exact h.quiet p stack t
      · show SysWf (y.save p (doTouch _ path).2)
        rw [e]
        exact h.put p stack hA.wf (hA.keeps (Or.inl hn)) (fun _ => id) fun _ _ _ => id
    | ln src dst =>
      obtain ⟨h0, h1, h2, h3, h4⟩ := hok
      rcases doLn_spec hl h0 h1 h2 (h3.of_find hl h0) h4 with ⟨t, e⟩ | ⟨f, d, t, e, hf, hfd, hA⟩
      · show SysWf (y.save p (doLn _ src dst).2)
        rw [e]
        exact h.quiet p stack t
      · show SysWf (y.save p (doLn _ src dst).2)
        rw [e]
        exact h.put p stack hA.wf (hA.keeps (Or.inr hfd)) (fun _ => id) fun _ _ _ => id
    | rm path =>
      obtain ⟨h1, h2⟩ := hsafe
      rcases doRm_spec hl hok h1 with ⟨t, e⟩ | ⟨f, σ, d, t, e, hσ, hf, hfd, hR⟩
      · show SysWf (y.save p (doRm _ path).2)
        rw [e]
        exact h.quiet p stack t
      · show SysWf (y.save p (doRm _ path).2)
        rw [e]
        refine h.put p stack hR.wf hR.keeps (fun q hq => ?_) fun fd hlt hu hg => ?_
        · exact hfd (hq.1 ▸ (h.cwd q).2)
        · exact h2 σ f hσ hf hg.2 fd hlt hu hg.1
    | rmdir path =>
      obtain ⟨h1, h2⟩ := hsafe
      rcases doRmdir_spec hl hok h1 with ⟨t, e⟩ | ⟨n, σ, d, t, e, hσ, hn, hR⟩
      · show SysWf (y.save p (doRmdir _ path).2)
        rw [e]
        exact h.quiet p stack t
      · show SysWf (y.save p (doRmdir _ path).2)
        rw [e]
        refine h.put p stack hR.wf hR.keeps (h2 σ n hσ hn) fun fd hlt hu hg => ?_
        exact (h.fds fd hlt hu).2 (hg ▸ hR.dir)
    | cd path => exact h.cd hok
    | «open» path mode => exact h.open hok
    | read fd buff length => exact h.read fd buff length
    | write fd buff length => exact h.write hok
    | close fd => exact h.close fd
    | lseek fd offset whence => exact h.lseek fd offset whence

end Step

end RiscvKernel.Fs
