import RiscvKernel.Shell.Path

/-!
# The shell and the kernel agree on the working directory

The shell runs as process `p` among other processes that use the file system. Its commands are
`cd arg`; between them any process, the shell included, may make any other call, but no directory is
removed. `cd_agree` is the invariant of these runs: `cur_path` is a path to the working directory.
-/

namespace RiscvKernel.Shell

open Lib Lib.Run Fs

/-! ## What the other calls keep -/

/-- The names of directories stay in place, except under `do_rmdir`. -/
theorem effect_has {y : Fs.Sys} {c : Call} {d' : Mem} (he : Effect y c d')
    (hc : ∀ p stack path, c ≠ .fs p stack (.rmdir path)) {n m : ℕ} {x : CStr}
    (hh : Has y.disk n x m) (hd : isDir y.disk m) : Has d' n x m := by
  obtain ⟨σ, hσ, e⟩ := hh
  have hadd : ∀ {f k}, AddedRef y.disk d' f k → Has d' n x m := by
    intro f k hA
    obtain ⟨τ, z, hroom, ht⟩ := hA.tree
    refine ⟨σ, hσ, ?_⟩
    show (nameTree d').ent σ = some (x, m)
    rw [ht]
    exact (NameTree.update_ent hroom.free).mpr (Or.inr e)
  cases he with
  | same _ e' =>
    rw [e']
    exact ⟨σ, hσ, e⟩
  | create _ _ _ hA _ => exact hadd hA
  | link _ _ _ _ hA => exact hadd hA
  | mkdir k _ hA =>
    obtain ⟨τ, z, hroom, ht⟩ := hA.tree
    have hlive : imap y.disk σ.1 = true := (ent_some e).1
    have hk : σ.1 ≠ k := by
      intro e'
      rw [e', hA.dead] at hlive
      cases hlive
    refine ⟨σ, hσ, ?_⟩
    show (nameTree d').ent σ = some (x, m)
    rw [ht]
    show Function.update (Function.update _ (k, 0, 0) _) (k, 0, 1) _ σ = _
    rw [Function.update_of_ne (by rintro rfl; exact hk rfl),
      Function.update_of_ne (by rintro rfl; exact hk rfl)]
    exact (NameTree.update_ent hroom.free).mpr (Or.inr e)
  | unlink p stack path _ τ f _ _ hf hR =>
    obtain ⟨υ, z, hυ, ht⟩ := hR.tree
    refine ⟨σ, hσ, ?_⟩
    show (nameTree d').ent σ = some (x, m)
    rw [ht]
    refine NameTree.update_none.mpr ⟨?_, e⟩
    rintro rfl
    rw [show ent y.disk σ = some (z, f) from hυ] at e
    cases e
    exact hf hd
  | rmdir p stack path e' => exact absurd e' (hc p stack path)
  | write w _ _ _ hW =>
    refine ⟨σ, hσ, ?_⟩
    show (nameTree d').ent σ = some (x, m)
    rw [hW.tree]
    exact e

/-- Only `do_cd` changes the working directory. -/
theorem exec_dirInode {y : Fs.Sys} (h : SysWf y) {p : ℕ} {stack : Mem} {op : Op}
    (hok : op.Ok (y.load p stack)) (hsafe : Call.Safe y (.fs p stack op))
    (hcd : ∀ path, op ≠ .cd path) : (op.exec (y.load p stack)).2.dirInode = (y.proc p).dirInode := by
  have hl := h.load p stack
  cases op with
  | mkdir path =>
    obtain ⟨h0, h1, h2, h3⟩ := hok
    show (doMkdir _ path).2.dirInode = _
    rcases doMkdir_spec hl h0 h1 h2 h3 with ⟨t, e⟩ | ⟨n, d, t, e, -⟩
    · rw [e]
      rfl
    · rw [e]
      rfl
  | touch path =>
    obtain ⟨h0, h1, h2, h3⟩ := hok
    show (doTouch _ path).2.dirInode = _
    rcases doTouch_spec hl h0 h1 h2 h3 with ⟨t, e⟩ | ⟨n, d, t, e, -⟩
    · rw [e]
      rfl
    · rw [e]
      rfl
  | ln src dst =>
    obtain ⟨h0, h1, h2, h3, h4⟩ := hok
    show (doLn _ src dst).2.dirInode = _
    rcases doLn_spec hl h0 h1 h2 (h3.of_find hl h0) h4 with ⟨t, e⟩ | ⟨f, d, t, e, -⟩
    · rw [e]
      rfl
    · rw [e]
      rfl
  | rm path =>
    show (doRm _ path).2.dirInode = _
    rcases doRm_spec hl hok hsafe.1 with ⟨t, e⟩ | ⟨f, σ, d, t, e, -⟩
    · rw [e]
      rfl
    · rw [e]
      rfl
  | rmdir path =>
    show (doRmdir _ path).2.dirInode = _
    rcases doRmdir_spec hl hok hsafe.1 with ⟨t, e⟩ | ⟨n, σ, d, t, e, -⟩
    · rw [e]
      rfl
    · rw [e]
      rfl
  | cd path => exact absurd rfl (hcd path)
  | «open» path mode =>
    obtain ⟨h0, h1, h2⟩ := hok
    show (doOpen _ path mode).2.dirInode = _
    obtain ⟨n, d, t, -, e | ⟨-, -, -, e⟩⟩ := doOpen_spec hl h0 h1 h2
    · rw [e]
      rfl
    · rw [e]
      rfl
  | read i buff length =>
    show (doRead _ i buff length).2.2.dirInode = _
    by_cases ho : (y.load p stack).isOpen i ∧ (y.fdescArray i.toNat).mode ≠ oWronly
    · obtain ⟨h1, h2⟩ := h.isOpen ho.1
      obtain ⟨k, t, buff', -, e, -⟩ := doRead_spec hl.wf ho.1 h1 h2 ho.2 buff length
      rw [e]
      rfl
    · rw [doRead_refused ho]
      rfl
  | write i buff length =>
    show (doWrite _ i buff length).2.dirInode = _
    by_cases ho : (y.load p stack).isOpen i ∧ (y.fdescArray i.toNat).mode ≠ oRdonly
    · obtain ⟨h1, h2⟩ := h.isOpen ho.1
      obtain ⟨d, t, e, -⟩ := doWrite_spec hl.wf hl.sbOk ho.1 h1 h2 ho.2 hok.1 hok.2
      rw [e]
      rfl
    · rw [doWrite_refused ho]
      rfl
  | close i =>
    show (doClose _ i).2.dirInode = _
    unfold doClose
    split_ifs <;> rfl
  | lseek i offset whence =>
    show (doLseek _ i offset whence).2.dirInode = _
    unfold doLseek
    dsimp only
    split_ifs <;> rfl

/-! ## Runs -/

/-- A step: a `cd` command of the shell, or any other call. -/
inductive Cmd
  | cd (stack : Mem) (arg : CStr)
  | other (c : Call)

/-- The state after a step; the shell is process `p`. -/
def step (p : ℕ) (z : Fs.Sys × CStr) : Cmd → Fs.Sys × CStr
  | .cd stack arg => (z.1.save p (cd (z.1.load p stack) z.2 arg).1, (cd (z.1.load p stack) z.2 arg).2)
  | .other c => (z.1.step c, z.2)

/-- The calls that neither remove a directory nor change the working directory of the shell. -/
def Bystander (p : ℕ) (c : Call) : Prop :=
  (∀ q stack path, c ≠ .fs q stack (.rmdir path)) ∧ (∀ stack path, c ≠ .fs p stack (.cd path)) ∧
    ∀ q temp, c ≠ .spawn q p temp

/-- The conditions on a step. -/
def CmdOk (p : ℕ) (z : Fs.Sys × CStr) : Cmd → Prop
  | .cd _ arg => CdOk z.2 arg
  | .other c => c.Ok z.1 ∧ c.Safe z.1 ∧ Bystander p c

/-- `cur_path` is a path to the working directory. -/
def Agree (p : ℕ) (z : Fs.Sys × CStr) : Prop :=
  ∀ stack, At (z.1.load p stack) z.2 (z.1.proc p).dirInode

theorem At.keep {s s' : State} (h : WfState s) (h' : WfState s') {path : CStr} {n : ℕ}
    (hat : At s path n) (hk : ∀ n x m, Has s.disk n x m → isDir s.disk m → Has s'.disk n x m)
    (h0 : 0#8 ∉ path) (hn : n ≠ neg1) (hd : isDir s.disk n) : At s' path n := by
  obtain ⟨rest, rfl⟩ : ∃ rest, path = slash :: rest := by
    cases path with
    | nil => exact absurd hat.1 (by simp)
    | cons b rest => exact ⟨rest, by rw [Option.some.inj hat.1]⟩
  rw [at_iff] at hat ⊢
  rw [← hat] at hn hd ⊢
  exact resolve_keep h h' hk rest _ h.wf.tree.root_live
    (fun hm => h0 (List.mem_cons_of_mem _ hm)) hn hd

/-- The invariant of the runs. -/
structure Inv (p : ℕ) (z : Fs.Sys × CStr) : Prop where
  wf : SysWf z.1
  str : 0#8 ∉ z.2
  agree : Agree p z

theorem Inv.other {p : ℕ} {z : Fs.Sys × CStr} (h : Inv p z) {c : Call} (hok : c.Ok z.1)
    (hsafe : c.Safe z.1) (hc : Bystander p c) : Inv p (step p z (.other c)) := by
  have hwf := step_wf h.wf hok hsafe
  have hcwd := h.wf.cwd p
  have hdir : ((z.1.step c).proc p).dirInode = (z.1.proc p).dirInode := by
    cases c with
    | spawn q child temp =>
      show (Function.update z.1.proc child _ p).dirInode = _
      rw [Function.update_of_ne]
      rintro rfl
      exact hc.2.2 q temp rfl
    | fs q stack op =>
      show (Function.update z.1.proc q _ p).dirInode = _
      by_cases e : p = q
      · subst e
        rw [Function.update_self]
        refine exec_dirInode h.wf hok hsafe fun path e => ?_
        exact hc.2.1 stack path (by rw [e])
      · rw [Function.update_of_ne e]
  refine ⟨hwf, h.str, fun stack => ?_⟩
  show At ((z.1.step c).load p stack) z.2 ((z.1.step c).proc p).dirInode
  rw [hdir]
  exact (h.agree stack).keep (h.wf.load p stack) (hwf.load p stack)
    (fun n x m => effect_has (step_effect h.wf hok hsafe) hc.1) h.str
    (live_ne_neg1 hcwd.1) hcwd.2

theorem Inv.cd {p : ℕ} {z : Fs.Sys × CStr} (h : Inv p z) {stack : Mem} {arg : CStr}
    (hok : CdOk z.2 arg) : Inv p (step p z (.cd stack arg)) := by
  have hl := h.wf.load p stack
  have hwf : SysWf (z.1.save p (doCd (z.1.load p stack) arg).2) := h.wf.cd hok.str
  have hcwd := h.wf.cwd p
  have hproc : ((z.1.save p (doCd (z.1.load p stack) arg).2).proc p).dirInode =
      (doCd (z.1.load p stack) arg).2.dirInode := by
    show (Function.update z.1.proc p _ p).dirInode = _
    rw [Function.update_self]
  have hkeep : ∀ {path : CStr} {n : ℕ}, At (z.1.load p stack) path n → 0#8 ∉ path → n ≠ neg1 →
      isDir z.1.disk n → (z.1.save p (doCd (z.1.load p stack) arg).2).disk = z.1.disk →
      ∀ stack', At ((z.1.save p (doCd (z.1.load p stack) arg).2).load p stack') path n := by
    intro path n hat h0 hn hd hdisk stack'
    refine hat.keep hl (hwf.load p stack') (fun n x m hh _ => ?_) h0 hn hd
    show Has (z.1.save p (doCd (z.1.load p stack) arg).2).disk n x m
    rw [hdisk]
    exact hh
  rcases doCd_spec hl hok.str with ⟨r, t, hr, e⟩ | ⟨n, t, e, hn, hlive, hd⟩
  · -- the kernel refuses, and the shell does nothing
    have hcur : (step p z (.cd stack arg)).2 = z.2 := by
      show (if (doCd (z.1.load p stack) arg).1 = 0 then _ else z.2) = z.2
      rw [e]
      exact if_neg hr
    refine ⟨hwf, by rw [hcur]; exact h.str, fun stack' => ?_⟩
    rw [hcur]
    show At _ z.2 ((z.1.save p (doCd (z.1.load p stack) arg).2).proc p).dirInode
    rw [hproc, show (doCd (z.1.load p stack) arg).2.dirInode = (z.1.proc p).dirInode by rw [e]; rfl]
    exact hkeep (h.agree stack) h.str (live_ne_neg1 hcwd.1) hcwd.2 (by rw [e]; rfl) stack'
  · have hcur : (step p z (.cd stack arg)).2 = mergePath z.2 arg := by
      show (if (doCd (z.1.load p stack) arg).1 = 0 then mergePath z.2 arg else z.2) = _
      rw [e]
      exact if_pos rfl
    have hn1 := live_ne_neg1 hlive
    rw [hn] at hn1
    obtain ⟨h1, h2⟩ := mergePath_at hl (h.agree stack) h.str hok hn1
    rw [← hn] at h1
    refine ⟨hwf, by rw [hcur]; exact h2, fun stack' => ?_⟩
    rw [hcur]
    show At _ (mergePath z.2 arg) ((z.1.save p (doCd (z.1.load p stack) arg).2).proc p).dirInode
    rw [hproc, show (doCd (z.1.load p stack) arg).2.dirInode = n by rw [e]]
    exact hkeep h1 h2 (live_ne_neg1 hlive) hd (by rw [e]; rfl) stack'

/-- After every command of the shell, `find_inode_by_path(cur_path)` is the working directory: in
every run from the root directory, on any file system, whose steps meet their conditions. -/
theorem cd_agree {p : ℕ} {y : Fs.Sys} (hy : SysWf y) (hroot : (y.proc p).dirInode = rootInodeNum)
    {cs : List Cmd} (hv : Valid (step p) (CmdOk p) (y, [slash]) cs) (stack : Mem) :
    (findInodeByPath ((run (step p) (y, [slash]) cs).1.load p stack)
      (run (step p) (y, [slash]) cs).2).1 =
      ((run (step p) (y, [slash]) cs).1.proc p).dirInode := by
  have h0 : Inv p (y, [slash]) := by
    refine ⟨hy, show 0#8 ∉ [slash] by decide, fun stack => ?_⟩
    show At _ [slash] (y.proc p).dirInode
    rw [hroot]
    exact at_root _
  have hI : Inv p (run (step p) (y, [slash]) cs) := by
    refine hv.inv (fun z c hz hc => ?_) h0
    cases c with
    | cd stack arg => exact hz.cd hc
    | other c => exact hz.other hc.1 hc.2.1 hc.2.2
  exact (hI.agree stack).2

/-- Process 1 makes a directory; the shell goes there and back. -/
def thereAndBack : List Cmd :=
  [.other (.fs 1 (fun _ => 0#8) (.mkdir [97#8])), .cd (fun _ => 0#8) [97#8],
    .cd (fun _ => 0#8) [46#8, 46#8]]

theorem cd_agree_thereAndBack :
    Valid (step 0) (CmdOk 0) (boot, [slash]) thereAndBack ∧
      (findInodeByPath ((run (step 0) (boot, [slash]) thereAndBack).1.load 0 fun _ => 0#8)
        (run (step 0) (boot, [slash]) thereAndBack).2).1 =
        ((run (step 0) (boot, [slash]) thereAndBack).1.proc 0).dirInode := by
  have hv : Valid (step 0) (CmdOk 0) (boot, [slash]) thereAndBack := by
    refine ⟨⟨by decide +kernel, trivial, ⟨fun _ _ _ => by simp, fun _ _ => by simp,
      fun _ _ => by simp⟩⟩, ⟨by decide, by decide, fun _ => ?_⟩, ⟨by decide, by decide, fun _ => ?_⟩,
      trivial⟩
    · show [97#8] = dotdot → _
      decide
    · show _ → Clean _
      intro _
      decide +kernel
  exact ⟨hv, cd_agree boot_start.wf rfl hv _⟩

/-- The same with `cd /a/`. -/
def slashRun : List Cmd :=
  [.other (.fs 1 (fun _ => 0#8) (.mkdir [97#8])), .cd (fun _ => 0#8) [slash, 97#8, slash],
    .cd (fun _ => 0#8) [46#8, 46#8]]

/-- The trailing slash stays in `cur_path`, and `cd ..` takes off nothing else: the shell is still in
`/a`, and the kernel is in the root directory. -/
theorem cd_disagree :
    (run (step 0) (boot, [slash]) slashRun).2 = [slash, 97#8] ∧
      (findInodeByPath ((run (step 0) (boot, [slash]) slashRun).1.load 0 fun _ => 0#8)
        (run (step 0) (boot, [slash]) slashRun).2).1 = 1 ∧
      ((run (step 0) (boot, [slash]) slashRun).1.proc 0).dirInode = 0 := by
  decide +kernel

end RiscvKernel.Shell
