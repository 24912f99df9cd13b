import RiscvKernel.Fs.Consistency

/-!
# Removals over whole runs

What removals leave behind. `do_rm` of a file with an index block frees a block of the root
directory (`doRm_frees_root`); under the conditions of `Call.Safe` no reference survives `do_rmdir`,
and a descriptor keeps its file.
-/

namespace RiscvKernel.Fs

open Lib Lib.Forest Lib.Run

/-! ## The last link of a file -/

/-- A file with one byte, and its last link. -/
def shortRun : List Call :=
  [.fs 0 (fun _ => 0#8) (.open [98#8] oRdwr),
    .fs 0 (fun _ => 0#8) (.write 0 (fun _ => 1#8) 1),
    .fs 0 (fun _ => 0#8) (.close 0)]

/-- A file whose only byte is behind the direct blocks. -/
def indexedRun : List Call :=
  [.fs 0 (fun _ => 0#8) (.open [98#8] oRdwr),
    .fs 0 (fun _ => 0#8) (.lseek 0 40960 0),
    .fs 0 (fun _ => 0#8) (.write 0 (fun _ => 1#8) 1),
    .fs 0 (fun _ => 0#8) (.close 0)]

/-- The file of `shortRun` and its entry. -/
theorem shortRun_file : Valid Sys.step (fun y c => c.Ok y ∧ c.Grows) boot shortRun ∧
    ent (stateAfter shortRun).disk (0, 0, 2) = some (lastName [98#8], 1) ∧
    ((0, 0, 2) : Slot).1 = (splitParent (stateAfter shortRun) [98#8]).1 ∧
    (imap (stateAfter shortRun).disk 1 = true ∧ ¬ isDir (stateAfter shortRun).disk 1) ∧
    (inode (stateAfter shortRun).disk 1).nlinks = 1 ∧ (inode (stateAfter shortRun).disk 1).ptr 10 = 0 ∧
    (inode (stateAfter shortRun).disk 1).ptr 11 = 0 := by
  decide +kernel

theorem doRm_last_link_shortRun :
    (inode (stateAfter shortRun).disk 1).nlinks = 1 ∧ (doRm (stateAfter shortRun) [98#8]).1 = 0 ∧
      Removed (stateAfter shortRun).disk 1 (0, 0, 2) (doRm (stateAfter shortRun) [98#8]).2.disk := by
  obtain ⟨hv, hσ, hp, ⟨hlive, hd⟩, hl, h10, h11⟩ := shortRun_file
  have hw := stateAfter_wf hv
  obtain ⟨h1, h2, -⟩ := doRm_last_link hw (show 0#8 ∉ ([98#8] : CStr) by decide) (σ := (0, 0, 2)) (f := 1)
    hp hσ hd hl
  obtain ⟨o1, -, o3, -⟩ := unlinkSlot_observe hw.wf hσ
  refine ⟨hl, h1, h2 (.of_direct ?_ ?_ ?_)⟩
  · rw [o1]
    exact hlive
  · rw [o3]
    exact h10
  · rw [o3]
    exact h11

/-- The file of `indexedRun` and its entry. -/
theorem indexedRun_file : Valid Sys.step (fun y c => c.Ok y ∧ c.Grows) boot indexedRun ∧
    ent (stateAfter indexedRun).disk (0, 0, 2) = some (lastName [98#8], 1) ∧
    ((0, 0, 2) : Slot).1 = (splitParent (stateAfter indexedRun) [98#8]).1 ∧
    ¬ isDir (stateAfter indexedRun).disk 1 ∧ (inode (stateAfter indexedRun).disk 1).nlinks = 1 ∧
    (inode (stateAfter indexedRun).disk 1).ptr 10 ≠ 0 ∧ (inode (stateAfter indexedRun).disk 1).ptr 11 = 0 := by
  decide +kernel

/-- Entry 0 of the index block is in use, so entry 8 is taken from the superblock: the offset 1 of
the inode map. Block 1 is the root directory's. -/
theorem doRm_frees_root :
    WfState (stateAfter indexedRun) ∧ (doRm (stateAfter indexedRun) [98#8]).1 = 0 ∧
      ent (stateAfter indexedRun).disk (0, 0, 2) = some ([98#8], 1) ∧
      ¬ isDir (stateAfter indexedRun).disk 1 ∧ (inode (stateAfter indexedRun).disk 1).nlinks = 1 ∧
      ¬ Removed (stateAfter indexedRun).disk 1 (0, 0, 2)
        (doRm (stateAfter indexedRun) [98#8]).2.disk := by
  obtain ⟨hv, hσ, hp, hd, hl, h10, h11⟩ := indexedRun_file
  have hw := stateAfter_wf hv
  obtain ⟨hret, hiff⟩ := doRm_last hw (by decide) hp hσ hd hl
  obtain ⟨o1, o2, o3, o4, -⟩ := unlinkSlot_observe hw.wf hσ
  have h11 : (inode (unlinkSlot (stateAfter indexedRun).disk (0, 0, 2)) 1).ptr 11 = 0 := by
    rw [o3]
    exact h11
  refine ⟨hw, hret, hσ, hd, hl, fun hR => ?_⟩
  have hx := (hiff fun hc => absurd h11 hc).mp hR
  have hN : Named (unlinkSlot (stateAfter indexedRun).disk (0, 0, 2)) 1 1 := by
    refine Or.inl (Or.inr ⟨?_, Or.inr ⟨one_ne_zero, 8, by omega, ?_⟩⟩)
    · rw [o3]
      exact h10
    · decide +kernel
  obtain ⟨hpm, hpd, hlb, hj⟩ := ent_some hσ
  have hU := unlinked_unlinkSlot hw.wf.blk hpm hpd (hw.wf.dirs 0 hpm hpd) hlb hj
  rcases hx.tame 1 hN with ⟨-, i, ks, hs, e⟩ | h1
  · have hroot : Shape (unlinkSlot (stateAfter indexedRun).disk (0, 0, 2)) (0, 0) [] :=
      ⟨(o1 0).trans hpm, by omega, by simp, by simp⟩
    have e0 : ref (cells (unlinkSlot (stateAfter indexedRun).disk (0, 0, 2))) (0, 0) [] = 1 := by
      decide +kernel
    have := hU.only.inv.owned.inj hs hroot (e.trans e0.symm) (by rw [e]; exact one_ne_zero)
    simp at this
  · rw [show bit (unlinkSlot (stateAfter indexedRun).disk (0, 0, 2)) bmapBase 1 = true by
      decide +kernel] at h1
    cases h1

/-! ## Directories -/

/-- What `do_rmdir` removes is not referred to any more, as long as its inode is not in use again:
in every run whose steps meet their conditions. -/
theorem rmdir_no_reference {y : Sys} (hy : y.Start) {cs cs' : List Call} {p : ℕ} {stack : Mem}
    {path : CStr} (hv : Valid Sys.step (fun y c => c.Ok y ∧ c.Safe y) y
      (cs ++ .fs p stack (.rmdir path) :: cs'))
    (hr : (run Sys.step y cs).ret (.fs p stack (.rmdir path)) = 0) :
    ∃ t, isDir (run Sys.step y cs).disk t ∧ imap (run Sys.step y cs).disk t = true ∧
      (∀ m, imap ((run Sys.step y cs).step (.fs p stack (.rmdir path))).disk m = true ↔
        imap (run Sys.step y cs).disk m = true ∧ m ≠ t) ∧
      (imap (run Sys.step y (cs ++ .fs p stack (.rmdir path) :: cs')).disk t = false →
        (∀ σ x, ent (run Sys.step y (cs ++ .fs p stack (.rmdir path) :: cs')).disk σ ≠
          some (x, t)) ∧
        ∀ q, ((run Sys.step y (cs ++ .fs p stack (.rmdir path) :: cs')).proc q).dirInode ≠ t) := by
  have hend := run_wf hy.wf hv
  obtain ⟨hv1, ⟨hok, hsafe⟩, -⟩ := valid_append.mp hv
  have hw := run_wf hy.wf hv1
  obtain ⟨t, e⟩ | ⟨n, σ, d, t, e, -, hσ, hR⟩ :=
    doRmdir_spec (hw.load p stack) hok hsafe.1
  · have : (doRmdir ((run Sys.step y cs).load p stack) path).1 = 0 := hr
    rw [e] at this
    cases this
  · refine ⟨n, hR.dir, hw.wf.tree.target_live hσ, fun m => ?_, fun hn => ⟨fun τ x hτ => ?_, ?_⟩⟩
    · rw [show ((run Sys.step y cs).step (.fs p stack (.rmdir path))).disk = d from
        congrArg (fun r => r.2.disk) e]
      exact hR.imap m
    · have : imap _ n = true := hend.wf.tree.target_live hτ
      rw [hn] at this
      cases this
    · rintro q rfl
      rw [(hend.cwd q).1] at hn
      cases hn

/-- Make a directory, go there, and remove it through its own `.`. -/
def dotRun : List Call :=
  [.fs 0 (fun _ => 0#8) (.mkdir [97#8]), .fs 0 (fun _ => 0#8) (.cd [97#8])]

/-- The entry in the parent is left, and so is the working directory. -/
theorem rmdir_dot_leaves_entry :
    imap (run Sys.step boot dotRun).disk 1 = true ∧
      (run Sys.step boot dotRun).ret (.fs 0 (fun _ => 0#8) (.rmdir dot)) = 0 ∧
      imap ((run Sys.step boot dotRun).step (.fs 0 (fun _ => 0#8) (.rmdir dot))).disk 1 = false ∧
      ent ((run Sys.step boot dotRun).step (.fs 0 (fun _ => 0#8) (.rmdir dot))).disk (0, 0, 2) =
        some ([97#8], 1) ∧
      (((run Sys.step boot dotRun).step (.fs 0 (fun _ => 0#8) (.rmdir dot))).proc 0).dirInode =
        1 := by
  decide +kernel

/-- A directory that can be removed from the root. -/
def mkdirRun : List Call := [.fs 0 (fun _ => 0#8) (.mkdir [97#8])]

/-- The directory of `mkdirRun`, its entry and its parent. -/
theorem mkdirRun_dir : Valid Sys.step (fun y c => c.Ok y ∧ c.Grows) boot mkdirRun ∧
    ent (run Sys.step boot mkdirRun).disk (0, 0, 2) = some (lastName [97#8], 1) ∧
    (splitParent ((run Sys.step boot mkdirRun).load 0 fun _ => 0#8) [97#8]).1 = 0 := by
  decide +kernel

theorem mkdirRun_rmdir_safe :
    Call.Safe (run Sys.step boot mkdirRun) (.fs 0 (fun _ => 0#8) (.rmdir [97#8])) := by
  obtain ⟨hv, hent, hpar⟩ := mkdirRun_dir
  have hw := run_grows boot_start.wf hv
  have hone : ∀ σ n, σ.1 = (splitParent ((run Sys.step boot mkdirRun).load 0 fun _ => 0#8)
      [97#8]).1 → ent (run Sys.step boot mkdirRun).disk σ = some (lastName [97#8], n) → n = 1 := by
    intro σ n hσ e
    have hσ' : σ = (0, 0, 2) := hw.wf.tree.distinct e hent (hσ.trans hpar)
    rw [hσ', hent] at e
    cases e
    rfl
  refine ⟨⟨fun h1 => ?_, by decide, fun σ n hσ e => ?_⟩, fun σ n hσ e q => ?_⟩
  · rw [hpar] at h1
    cases h1
  · obtain rfl := hone σ n hσ e
    decide +kernel
  · obtain rfl := hone σ n hσ e
    show (Function.update boot.proc 0 _ q).dirInode ≠ 1
    rw [Function.update_apply]
    split_ifs
    · decide +kernel
    · exact zero_ne_one

theorem rmdir_no_reference_mkdirRun : ∃ t, isDir (run Sys.step boot mkdirRun).disk t ∧
    (imap (run Sys.step boot (mkdirRun ++ [.fs 0 (fun _ => 0#8) (.rmdir [97#8])])).disk t = false →
      ∀ σ x, ent (run Sys.step boot (mkdirRun ++ [.fs 0 (fun _ => 0#8) (.rmdir [97#8])])).disk σ ≠
        some (x, t)) := by
  have hv : Valid Sys.step (fun y c => c.Ok y ∧ c.Safe y) boot
      (mkdirRun ++ [.fs 0 (fun _ => 0#8) (.rmdir [97#8])]) :=
    ⟨⟨by decide +kernel, trivial⟩, ⟨by decide +kernel, mkdirRun_rmdir_safe⟩, trivial⟩
  obtain ⟨t, h1, -, -, h2⟩ := rmdir_no_reference boot_start hv (by decide +kernel)
  exact ⟨t, h1, fun h => (h2 h).1⟩

/-! ## Descriptors -/

/-- The step neither closes descriptor `fd` nor returns it from `do_open`. -/
def Call.Spares (fd : ℕ) (y : Sys) (c : Call) : Prop :=
  (∀ p stack, c ≠ .fs p stack (.close fd)) ∧
    ∀ p stack path mode, c = .fs p stack (.open path mode) → y.ret c ≠ fd

/-- A spared descriptor keeps its file. -/
theorem run_fdesc {y : Sys} (h : SysWf y) {fd : ℕ} {cs : List Call}
    (hv : Valid Sys.step (fun y c => (c.Ok y ∧ c.Safe y) ∧ c.Spares fd y) y cs) :
    SysWf (run Sys.step y cs) ∧
      ((run Sys.step y cs).fdescArray fd).inodeNum = (y.fdescArray fd).inodeNum := by
  refine hv.inv (I := fun z => SysWf z ∧ (z.fdescArray fd).inodeNum = (y.fdescArray fd).inodeNum)
    ?_ ⟨h, rfl⟩
  rintro z c ⟨hz, e⟩ ⟨⟨hok, hsafe⟩, hs1, hs2⟩
  obtain ⟨pos, e'⟩ := step_fdesc hz hok hsafe fd hs1 hs2
  exact ⟨step_wf hz hok hsafe, by rw [e']; exact e⟩

/-- Process 0 opens a file. -/
def openRun : List Call := [.fs 0 (fun _ => 0#8) (.open [97#8] oRdwr)]

/-- A write of process 0 through descriptor 0. -/
def writeCall : Call := .fs 0 (fun _ => 0#8) (.write 0 (fun _ => 1#8) 3)

/-- The file of descriptor 0 is removed, and another one gets its inode. -/
def reuseRun : List Call :=
  openRun ++ [.fs 0 (fun _ => 0#8) (.rm [97#8]), .fs 0 (fun _ => 0#8) (.touch [98#8])]

end RiscvKernel.Fs
