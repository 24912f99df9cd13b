import RiscvKernel.Fs.System

/-!
# What a step does to the disk

`step_effect` is the inversion of a step that meets its conditions: the disk stays as it is, or a
name is added or removed, or one write happens. The facts about whole runs are read off it.
-/

namespace RiscvKernel.Fs

open Lib Lib.Forest

/-- A write: the bytes `buff 0`, …, `buff (len - 1)` go to inode `n` from position `pos` on. -/
structure Write where
  n : ℕ
  pos : ℕ
  len : ℕ
  buff : Mem

/-- The write that a step makes, if it makes one. -/
def Call.written (y : Sys) : Call → Option Write
  | .fs p stack (.write fd buff length) =>
    if (y.load p stack).isOpen fd ∧ (y.fdescArray fd.toNat).mode ≠ oRdonly then
      some ⟨(y.fdescArray fd.toNat).inodeNum, (y.fdescArray fd.toNat).pos, length.toNat, buff⟩
    else none
  | _ => none

/-- The calls about descriptors. -/
def Call.OnFds : Call → Prop
  | .fs _ _ (.open _ _) => True
  | .fs _ _ (.read _ _ _) => True
  | .fs _ _ (.write _ _ _) => True
  | .fs _ _ (.close _) => True
  | .fs _ _ (.lseek _ _ _) => True
  | _ => False

/-- What a step may do to the disk. -/
inductive Effect (y : Sys) (c : Call) (d' : Mem) : Prop
  | same (hw : c.written y = none) (e : d' = y.disk)
  | create (n : ℕ) (hw : c.written y = none) (hn : imap y.disk n = false)
      (hA : AddedRef y.disk d' n 1) (hi : inode d' n = newFileInode)
  | link (f : ℕ) (hw : c.written y = none) (hf : imap y.disk f = true) (hd : ¬ isDir y.disk f)
      (hA : AddedRef y.disk d' f ((inode y.disk f).nlinks + 1))
  | mkdir (n : ℕ) (hw : c.written y = none) (hA : AddedDir y.disk d' n)
  | unlink (p : ℕ) (stack : Mem) (path : CStr) (hc : c = .fs p stack (.rm path)) (σ : Slot) (f : ℕ)
      (hp : σ.1 = (splitParent (y.load p stack) path).1)
      (hσ : ent y.disk σ = some (lastName path, f)) (hd : ¬ isDir y.disk f)
      (hR : RemovedRef y.disk d' f)
  | rmdir (p : ℕ) (stack : Mem) (path : CStr) (hc : c = .fs p stack (.rmdir path)) (σ : Slot)
      (n : ℕ) (hp : σ.1 = (splitParent (y.load p stack) path).1)
      (hσ : ent y.disk σ = some (lastName path, n)) (hR : RemovedDir y.disk d' n)
  | write (w : Write) (hw : c.written y = some w) (hl : imap y.disk w.n = true)
      (hd : ¬ isDir y.disk w.n) (hW : Wrote w.n w.pos w.len w.buff y.disk d')

/-- Everything is kept, the files with their data, and new files are empty. -/
structure Kept (d d' : Mem) : Prop where
  keeps : Keeps (fun _ => False) d d'
  files : ∀ m, imap d m = true → ¬ isDir d m → SameFile m d d'
  new : ∀ m, imap d' m = true → imap d m = true ∨ isDir d' m ∨ inode d' m = newFileInode

theorem AddedRef.kept_new {d d' : Mem} {n k : ℕ} (h : AddedRef d d' n k) (hn : Fs.imap d n = false)
    (hi : inode d' n = newFileInode) : Kept d d' := by
  refine ⟨h.keeps (Or.inl hn), h.files, fun m hm => ?_⟩
  rw [h.imap, Bool.or_eq_true, decide_eq_true_eq] at hm
  rcases hm with rfl | hm
  · exact Or.inr (Or.inr hi)
  · exact Or.inl hm

theorem AddedRef.kept_old {d d' : Mem} {f k : ℕ} (h : AddedRef d d' f k) (hf : Fs.imap d f = true)
    (hd : ¬ isDir d f) : Kept d d' := by
  refine ⟨h.keeps (Or.inr hd), h.files, fun m hm => ?_⟩
  rw [h.imap, Bool.or_eq_true, decide_eq_true_eq] at hm
  rcases hm with rfl | hm
  · exact Or.inl hf
  · exact Or.inl hm

theorem AddedDir.kept {d d' : Mem} {n : ℕ} (h : AddedDir d d' n) : Kept d d' := by
  refine ⟨h.keeps, h.files, fun m hm => ?_⟩
  rw [h.imap, Bool.or_eq_true, decide_eq_true_eq] at hm
  rcases hm with rfl | hm
  · exact Or.inr (Or.inl ((h.isDir_iff m).mpr (Or.inl rfl)))
  · exact Or.inl hm

/-- Nothing but inode `n` changes, as far as files and directories go. -/
structure OnlyFile (n : ℕ) (d d' : Mem) : Prop where
  inode : ∀ m ≠ n, imap d m = true → inode d' m = inode d m
  pblk : ∀ m ≠ n, imap d m = true → ∀ l, pblk d' m l = pblk d m l
  block : ∀ m ≠ n, imap d m = true → ∀ l, fileBlock d' m l = fileBlock d m l
  ent : ∀ σ, ent d' σ = ent d σ

section Step

variable {y : Sys} (h : SysWf y)

include h

/-- `do_write` is refused, or the write happens. -/
theorem write_cases {p : ℕ} {stack : Mem} {fd : ℤ} {buff : Mem} {length : ℤ}
    (hok : (Op.write fd buff length).Ok (y.load p stack)) :
    (Call.written y (.fs p stack (.write fd buff length)) = none ∧
      (doWrite (y.load p stack) fd buff length).2.disk = y.disk) ∨
    (∃ w : Write, Call.written y (.fs p stack (.write fd buff length)) = some w ∧
      w.n = (y.fdescArray fd.toNat).inodeNum ∧ imap y.disk w.n = true ∧ ¬ isDir y.disk w.n ∧
      Wrote w.n w.pos w.len w.buff y.disk (doWrite (y.load p stack) fd buff length).2.disk) := by
  by_cases ho : (y.load p stack).isOpen fd ∧ (y.fdescArray fd.toNat).mode ≠ oRdonly
  · obtain ⟨h1, h2⟩ := h.isOpen ho.1
    obtain ⟨d, t, e, hW⟩ := doWrite_spec (h.load p stack).wf (h.load p stack).sbOk ho.1 h1 h2 ho.2
      hok.1 hok.2
    rw [e]
    exact Or.inr ⟨_, if_pos ho, rfl, h1, h2, hW⟩
  · rw [doWrite_refused ho]
    exact Or.inl ⟨if_neg ho, rfl⟩

/-- A write through a descriptor changes the file of the descriptor only. -/
theorem write_onlyFile {p : ℕ} {stack : Mem} {fd : ℤ} {buff : Mem} {length : ℤ}
    (hok : (Op.write fd buff length).Ok (y.load p stack)) :
    OnlyFile (y.fdescArray fd.toNat).inodeNum y.disk
      (doWrite (y.load p stack) fd buff length).2.disk := by
  rcases write_cases h hok with ⟨-, e⟩ | ⟨w, -, hn, -, -, hW⟩
  · rw [e]
    exact ⟨fun _ _ _ => rfl, fun _ _ _ _ => rfl, fun _ _ _ _ => rfl, fun _ => rfl⟩
  · rw [hn] at hW
    have ho := hW.stored.only
    refine ⟨fun m hm _ => ho.inode_ne m hm, ho.pblk_ne, ho.block_ne, fun σ => ?_⟩
    exact congrArg (fun t => NameTree.ent t σ) hW.tree

theorem read_disk (p : ℕ) (stack : Mem) (fd : ℤ) (buff : Mem) (length : ℤ) :
    (doRead (y.load p stack) fd buff length).2.2.disk = y.disk := by
  by_cases ho : (y.load p stack).isOpen fd ∧ (y.fdescArray fd.toNat).mode ≠ oWronly
  · obtain ⟨h1, h2⟩ := h.isOpen ho.1
    obtain ⟨k, t, buff', -, e, -⟩ := doRead_spec (h.load p stack).wf ho.1 h1 h2 ho.2 buff length
    rw [e]
    rfl
  · rw [doRead_refused ho]
    rfl

/-- The effect of a step that meets its conditions. -/
theorem step_effect {c : Call} (hok : c.Ok y) (hsafe : c.Safe y) : Effect y c (y.step c).disk := by
  cases c with
  | spawn p child temp => exact .same rfl rfl
  | fs p stack op =>
    have hl := h.load p stack
    show Effect y _ (op.exec (y.load p stack)).2.disk
    cases op with
    | mkdir path =>
      obtain ⟨h0, h1, h2, h3⟩ := hok
      show Effect y _ (doMkdir _ path).2.disk
      rcases doMkdir_spec hl h0 h1 h2 h3 with ⟨t, e⟩ | ⟨n, d, t, e, hA⟩
      · rw [e]
        exact .same rfl rfl
      · rw [e]
        exact .mkdir n rfl hA
    | touch path =>
      obtain ⟨h0, h1, h2, h3⟩ := hok
      show Effect y _ (doTouch _ path).2.disk
      rcases doTouch_spec hl h0 h1 h2 h3 with ⟨t, e⟩ | ⟨n, d, t, e, hn, hA, hi, -⟩
      · rw [e]
        exact .same rfl rfl
      · rw [e]
        exact .create n rfl hn hA hi
    | ln src dst =>
      obtain ⟨h0, h1, h2, h3, h4⟩ := hok
      show Effect y _ (doLn _ src dst).2.disk
      rcases doLn_spec hl h0 h1 h2 (h3.of_find hl h0) h4 with ⟨t, e⟩ | ⟨f, d, t, e, hf, hfd, hA⟩
      · rw [e]
        exact .same rfl rfl
      · rw [e]
        exact .link f rfl hf hfd hA
    | rm path =>
      show Effect y _ (doRm _ path).2.disk
      rcases doRm_spec hl hok hsafe.1 with ⟨t, e⟩ | ⟨f, σ, d, t, e, hσ, hf, hfd, hR⟩
      · rw [e]
        exact .same rfl rfl
      · rw [e]
        exact .unlink p stack path rfl σ f hσ hf hfd hR
    | rmdir path =>
      show Effect y _ (doRmdir _ path).2.disk
      rcases doRmdir_spec hl hok hsafe.1 with ⟨t, e⟩ | ⟨n, σ, d, t, e, hσ, hn, hR⟩
      · rw [e]
        exact .same rfl rfl
      · rw [e]
        exact .rmdir p stack path rfl σ n hσ hn hR
    | cd path =>
      show Effect y _ (doCd _ path).2.disk
      rcases doCd_spec hl hok with ⟨r, t, -, e⟩ | ⟨n, t, e, -⟩
      · rw [e]
        exact .same rfl rfl
      · rw [e]
        exact .same rfl rfl
    | «open» path mode =>
      obtain ⟨h0, h1, h2⟩ := hok
      obtain ⟨n, d, t, hO, he⟩ := doOpen_spec hl h0 h1 h2
      have hd : (doOpen (y.load p stack) path mode).2.disk = d := by
        rcases he with e | ⟨-, -, -, e⟩
        · rw [e]
          rfl
        · rw [e]
          rfl
      show Effect y _ (doOpen _ path mode).2.disk
      rw [hd]
      rcases hO with rfl | ⟨hn, hA, hi⟩
      · exact .same rfl rfl
      · exact .create n rfl hn hA hi
    | read fd buff length => exact .same rfl (read_disk h p stack fd buff length)
    | write fd buff length =>
      rcases write_cases h hok with ⟨hw, e⟩ | ⟨w, hw, -, h1, h2, hW⟩
      · exact .same hw e
      · exact .write w hw h1 h2 hW
    | close fd =>
      refine .same rfl ?_
      show (doClose _ fd).2.disk = y.disk
      unfold doClose
      split_ifs <;> rfl
    | lseek fd offset whence =>
      refine .same rfl ?_
      show (doLseek _ fd offset whence).2.disk = y.disk
      unfold doLseek
      dsimp only
      split_ifs <;> rfl

/-- The calls that are not about descriptors change none. -/
theorem step_fdescArray {c : Call} (hok : c.Ok y) (hsafe : c.Safe y) (hc : ¬ c.OnFds) :
    (y.step c).fdescArray = y.fdescArray := by
  cases c with
  | spawn p child temp => rfl
  | fs p stack op =>
    have hl := h.load p stack
    cases op with
    | mkdir path =>
      obtain ⟨h0, h1, h2, h3⟩ := hok
      show (doMkdir _ path).2.fdescArray = _
      rcases doMkdir_spec hl h0 h1 h2 h3 with ⟨t, e⟩ | ⟨n, d, t, e, -⟩
      · rw [e]
        rfl
      · rw [e]
        rfl
    | touch path =>
      obtain ⟨h0, h1, h2, h3⟩ := hok
      show (doTouch _ path).2.fdescArray = _
      rcases doTouch_spec hl h0 h1 h2 h3 with ⟨t, e⟩ | ⟨n, d, t, e, -⟩
      · rw [e]
        rfl
      · rw [e]
        rfl
    | ln src dst =>
      obtain ⟨h0, h1, h2, h3, h4⟩ := hok
      show (doLn _ src dst).2.fdescArray = _
      rcases doLn_spec hl h0 h1 h2 (h3.of_find hl h0) h4 with ⟨t, e⟩ | ⟨f, d, t, e, -⟩
      · rw [e]
        rfl
      · rw [e]
        rfl
    | rm path =>
      show (doRm _ path).2.fdescArray = _
      rcases doRm_spec hl hok hsafe.1 with ⟨t, e⟩ | ⟨f, σ, d, t, e, -⟩
      · rw [e]
        rfl
      · rw [e]
        rfl
    | rmdir path =>
      show (doRmdir _ path).2.fdescArray = _
      rcases doRmdir_spec hl hok hsafe.1 with ⟨t, e⟩ | ⟨n, σ, d, t, e, -⟩
      · rw [e]
        rfl
      · rw [e]
        rfl
    | cd path =>
      show (doCd _ path).2.fdescArray = _
      rcases doCd_spec hl hok with ⟨r, t, -, e⟩ | ⟨n, t, e, -⟩
      · rw [e]
        rfl
      · rw [e]
        rfl
    | «open» path mode => exact absurd trivial hc
    | read i buff length => exact absurd trivial hc
    | write i buff length => exact absurd trivial hc
    | close i => exact absurd trivial hc
    | lseek i offset whence => exact absurd trivial hc

/-- `do_open` installs a descriptor at position 0, or changes none. -/
theorem open_fdescArray {p : ℕ} {stack : Mem} {path : CStr} {mode : ℕ}
    (hok : (Op.open path mode).Ok (y.load p stack)) :
    (doOpen (y.load p stack) path mode).2.fdescArray = y.fdescArray ∨
    (0 ≤ (doOpen (y.load p stack) path mode).1 ∧ ∃ n, (doOpen (y.load p stack) path mode).2.fdescArray =
      Function.update y.fdescArray (doOpen (y.load p stack) path mode).1.toNat ⟨n, mode, 0, 1⟩) := by
  obtain ⟨h0, h1, h2⟩ := hok
  obtain ⟨n, d, t, -, e | ⟨-, -, hfd, e⟩⟩ := doOpen_spec (h.load p stack) h0 h1 h2
  · rw [e]
    exact Or.inl rfl
  · rw [e]
    exact Or.inr ⟨hfd, n, rfl⟩

/-- Changes of the position apart, a descriptor only changes when it is closed or returned by
`do_open`. -/
theorem step_fdesc {c : Call} (hok : c.Ok y) (hsafe : c.Safe y) (fd : ℕ)
    (hclose : ∀ p stack, c ≠ .fs p stack (.close fd))
    (hopen : ∀ p stack path mode, c = .fs p stack (.open path mode) → y.ret c ≠ fd) :
    ∃ pos, (y.step c).fdescArray fd = { y.fdescArray fd with pos := pos } := by
  have hset : ∀ (i : ℤ) (pos : ℕ),
      ∃ pos', Function.update y.fdescArray i.toNat { y.fdescArray i.toNat with pos := pos } fd =
        { y.fdescArray fd with pos := pos' } := fun i pos => by
    by_cases e : fd = i.toNat
    · exact ⟨pos, by rw [e, Function.update_self]⟩
    · exact ⟨(y.fdescArray fd).pos, by rw [Function.update_of_ne e]⟩
  have hsame : (y.step c).fdescArray = y.fdescArray →
      ∃ pos, (y.step c).fdescArray fd = { y.fdescArray fd with pos := pos } := fun e =>
    ⟨(y.fdescArray fd).pos, by rw [e]⟩
  by_cases hc : c.OnFds
  swap
  · exact hsame (step_fdescArray h hok hsafe hc)
  cases c with
  | spawn p child temp => exact hc.elim
  | fs p stack op =>
    have hl := h.load p stack
    cases op with
    | mkdir path => exact hc.elim
    | touch path => exact hc.elim
    | ln src dst => exact hc.elim
    | rm path => exact hc.elim
    | rmdir path => exact hc.elim
    | cd path => exact hc.elim
    | «open» path mode =>
      have hne : (doOpen (y.load p stack) path mode).1 ≠ fd := hopen p stack path mode rfl
      rcases open_fdescArray h hok with e | ⟨hfd, n, e⟩
      · exact hsame e
      · refine ⟨(y.fdescArray fd).pos, ?_⟩
        show (doOpen _ path mode).2.fdescArray fd = _
        rw [e]
        exact Function.update_of_ne (fun e' => hne (by rw [e', Int.toNat_of_nonneg hfd])) _ _
    | read i buff length =>
      show ∃ pos, (doRead _ i buff length).2.2.fdescArray fd = _
      by_cases ho : (y.load p stack).isOpen i ∧ (y.fdescArray i.toNat).mode ≠ oWronly
      · obtain ⟨h1, h2⟩ := h.isOpen ho.1
        obtain ⟨k, t, buff', -, e, -⟩ := doRead_spec hl.wf ho.1 h1 h2 ho.2 buff length
        rw [e]
        exact hset i _
      · apply hsame
        show (doRead _ i buff length).2.2.fdescArray = _
        rw [doRead_refused ho]
        rfl
    | write i buff length =>
      show ∃ pos, (doWrite _ i buff length).2.fdescArray fd = _
      by_cases ho : (y.load p stack).isOpen i ∧ (y.fdescArray i.toNat).mode ≠ oRdonly
      · obtain ⟨h1, h2⟩ := h.isOpen ho.1
        obtain ⟨d, t, e, -⟩ := doWrite_spec hl.wf hl.sbOk ho.1 h1 h2 ho.2 hok.1 hok.2
        rw [e]
        exact hset i _
      · apply hsame
        show (doWrite _ i buff length).2.fdescArray = _
        rw [doWrite_refused ho]
        rfl
    | close i =>
      show ∃ pos, (doClose _ i).2.fdescArray fd = _
      unfold doClose
      split_ifs with ho
      · have hi : fd ≠ i.toNat := by
          rintro rfl
          exact hclose p stack (by rw [Int.toNat_of_nonneg ho.1])
        exact ⟨(y.fdescArray fd).pos, Function.update_of_ne hi _ _⟩
      · exact ⟨(y.fdescArray fd).pos, rfl⟩
    | lseek i offset whence =>
      show ∃ pos, (doLseek _ i offset whence).2.fdescArray fd = _
      unfold doLseek
      dsimp only
      split_ifs
      · exact hset i _
      · exact hset i _
      · exact hset i _
      · exact ⟨(y.fdescArray fd).pos, rfl⟩
      · exact ⟨(y.fdescArray fd).pos, rfl⟩

end Step

end RiscvKernel.Fs
