import RiscvKernel.Fs.Contents
import RiscvKernel.Fs.Rounds

/-!
# Bytes that were never written

A byte below the size of a file that no write has covered should read as zero. A whole block that is missing does, but
`get_physical_block_id` does not clear a data block that it allocates: what `do_write` does not store in such a block
reads as what the disk held there. `LeavesZeros` is the condition on a write under which nothing of this comes into
sight, and under it the bytes that the store does not have are zero (`holes_read_zero`).
-/

namespace RiscvKernel.Fs

open Lib Lib.Run

/-! ## The condition -/

/-- The write brings no old contents of the disk below the size of the file: what lies between the size and the position
in blocks that are there is zero, and so is what the rounds leave alone, below the new size, in blocks they allocate. -/
def LeavesZeros (s : State) (fd : ℤ) (buff : Mem) (length : ℤ) : Prop :=
  let n := (s.fdescArray fd.toNat).inodeNum
  let pos := (s.fdescArray fd.toNat).pos
  0 < length.toNat →
    (∀ o < pos, (inode s.disk n).size ≤ o → pblk s.disk n (o / 4096) ≠ 0 → fileByte s.disk n o = 0#8) ∧
    WriteRounds (RoundClean (fun o => o < max (inode s.disk n).size (pos + length.toNat)) n length.toNat) s fd buff length

instance (s : State) (fd : ℤ) (buff : Mem) (length : ℤ) : Decidable (LeavesZeros s fd buff length) :=
  inferInstanceAs (Decidable (_ → (∀ o < _, _ → _ → _) ∧ WriteRounds ..))

/-- The conditions on a step of a run without removals in which nothing old comes into sight. -/
def Call.Clean (y : Sys) (c : Call) : Prop := c.Ok y ∧ c.Grows ∧ c.IfWrites LeavesZeros y

instance (y : Sys) (c : Call) : Decidable (c.Clean y) := inferInstanceAs (Decidable (_ ∧ _ ∧ _))

/-- The bytes of the files that are not in the store are zero. -/
def ZeroHoles (t : Store) (d : Mem) : Prop :=
  ∀ n, imap d n = true → ¬ isDir d n → ∀ o < (inode d n).size, t.byte n o = none → fileByte d n o = 0#8

/-! ## One step -/

/-- Changes that keep the files, and new files that are empty. -/
theorem ZeroHoles.keep {t : Store} {d d' : Mem} (h : ZeroHoles t d) (hk : Kept d d') : ZeroHoles t d' := by
  intro n hn hd o ho hnone
  by_cases h0 : imap d n = true
  · have h1 : ¬ isDir d n := fun h2 => hd ((hk.keeps n h0 id).2.mpr h2)
    have hf := hk.files n h0 h1
    rw [hf.fileByte]
    exact h n h0 h1 o (by rwa [hf.size] at ho) hnone
  · rcases hk.new n hn with h1 | h1 | h1
    · exact absurd h1 h0
    · exact absurd h1 hd
    · rw [h1] at ho
      exact absurd ho (Nat.not_lt_zero o)

/-- The step that makes a write is a `do_write` through a descriptor for writing. -/
theorem written_some {y : Sys} {c : Call} {w : Write} (h : c.written y = some w) :
    ∃ p stack fd buff length, c = .fs p stack (.write fd buff length) ∧ (y.load p stack).isOpen fd ∧
      (y.fdescArray fd.toNat).mode ≠ oRdonly ∧
      w = ⟨(y.fdescArray fd.toNat).inodeNum, (y.fdescArray fd.toNat).pos, length.toNat, buff⟩ := by
  unfold Call.written at h
  split at h
  · split_ifs at h with hc
    exact ⟨_, _, _, _, _, rfl, hc.1, hc.2, (Option.some.inj h).symm⟩
  · cases h

/-- On a well-formed disk a write that meets its conditions puts its bytes in place, and the bytes in `Q` that were in a
hole are zero. -/
theorem landed_write {y : Sys} (h : SysWf y) {p : ℕ} {stack : Mem} {fd : ℤ} {buff : Mem} {length : ℤ}
    (hok : (Op.write fd buff length).Ok (y.load p stack)) (ho : (y.load p stack).isOpen fd)
    (hm : (y.fdescArray fd.toNat).mode ≠ oRdonly) {Q : ℕ → Prop}
    (hQ : WriteRounds (RoundClean Q (y.fdescArray fd.toNat).inodeNum length.toNat) (y.load p stack) fd buff length) :
    Landed Q (y.fdescArray fd.toNat).inodeNum (y.fdescArray fd.toNat).pos length.toNat buff 0 y.disk
      (doWrite (y.load p stack) fd buff length).2.disk := by
  have hl := h.load p stack
  obtain ⟨h1, h2⟩ := h.isOpen ho
  obtain ⟨d, t, e, -⟩ := doWrite_spec hl.wf hl.sbOk ho h1 h2 hm hok.1 hok.2
  have hbelow := hok.1
  have hr : WriteRounds (RoundOk Q (2 ^ 32) (y.fdescArray fd.toNat).inodeNum length.toNat) (y.load p stack) fd buff length := by
    refine (EveryRound.below hQ ?_).mono fun _ _ _ _ hc =>
      ⟨fun _ => hc.2.le, fun _ => Or.inl hc.2, hc.1⟩
    rw [Nat.sub_zero]
    omega
  rcases doWrite_rounds hl.sbOk h.wf.blk ho hm h1 (by omega) hr with ⟨-, k, d', hE⟩ | ⟨-, -, hf, -⟩
  · have hk : k = length.toNat := by
      have := hE.count
      rw [e] at this
      exact Int.ofNat_inj.mp this.symm
    rw [hE.disk, ← hk]
    exact hE.landed
  · rw [hok.2] at hf
    cases hf

/-- A write that leaves zeros. -/
theorem ZeroHoles.write {t : Store} {d d' : Mem} (h : ZeroHoles t d) (hb : BlkInv d) {w : Write} (hl : imap d w.n = true)
    (hd : ¬ isDir d w.n) (hW : Wrote w.n w.pos w.len w.buff d d')
    (hP : Landed (fun o => o < max (inode d w.n).size (w.pos + w.len)) w.n w.pos w.len w.buff 0 d d')
    (hgap : 0 < w.len → ∀ o < w.pos, (inode d w.n).size ≤ o → pblk d w.n (o / 4096) ≠ 0 → fileByte d w.n o = 0#8) :
    ZeroHoles (t.write w) d' := by
  intro n hn hd' o ho hnone
  rw [hW.stored.only.imap] at hn
  have hd0 : ¬ isDir d n := fun h1 => hd' ((hW.keeps n hn id).2.mpr h1)
  simp only [Store.write] at hnone
  by_cases e : n = w.n
  · subst e
    have hout : o < w.pos ∨ w.pos + w.len ≤ o := by
      by_contra hc
      rw [if_pos ⟨rfl, by omega⟩] at hnone
      cases hnone
    rw [if_neg (by omega)] at hnone
    rw [hW.size] at ho
    rw [hP.byte_eq hb (show o < _ by split_ifs at ho <;> omega) hout]
    by_cases hold : o < (inode d w.n).size
    · exact h w.n hn hd0 o hold hnone
    · -- between the size and the position
      by_cases h0 : pblk d w.n (o / 4096) = 0
      · exact fileByte_hole hb h0
      · split_ifs at ho with hlen
        · exact hgap hlen o (by omega) (by omega) h0
        · exact absurd ho hold
  · rw [if_neg fun hc => e hc.1] at hnone
    have hf := hW.stored.only.sameFile e hn
    rw [hf.fileByte]
    exact h n hn hd0 o (by rwa [hf.size] at ho) hnone

/-- A step of a growing file system that leaves zeros. -/
theorem ZeroHoles.step {t : Store} {y : Sys} (h : ZeroHoles t y.disk) (hw : SysWf y) {c : Call} (hok : c.Ok y)
    (hc : c.Grows) (hz : c.IfWrites LeavesZeros y) :
    ZeroHoles ((c.written y).toList.foldl Store.write t) (y.step c).disk := by
  cases step_effect hw hok (hc.safe y) with
  | same hn e =>
    rw [hn, e]
    exact h
  | create n hn hd hA hi =>
    rw [hn]
    exact h.keep (hA.kept_new hd hi)
  | link f hn hf hd hA =>
    rw [hn]
    exact h.keep (hA.kept_old hf hd)
  | mkdir n hn hA =>
    rw [hn]
    exact h.keep hA.kept
  | unlink p stack path e =>
    rw [e] at hc
    exact hc.elim
  | rmdir p stack path e =>
    rw [e] at hc
    exact hc.elim
  | write w hn hl hd hW =>
    rw [hn]
    obtain ⟨p, stack, fd, buff, length, rfl, ho, hm, rfl⟩ := written_some hn
    refine h.write hw.wf.blk hl hd hW (landed_write hw hok ho hm ?_) fun hlen => (hz ho hm hlen).1
    by_cases hlen : 0 < length.toNat
    · exact (hz ho hm hlen).2
    · unfold WriteRounds
      rw [Nat.eq_zero_of_not_pos hlen]
      trivial

/-! ## Runs -/

theorem zeroHoles_run {cs : List Call} : ∀ {y : Sys} {t : Store}, SysWf y → ZeroHoles t y.disk →
    Valid Sys.step (fun y c => c.Clean y) y cs →
    ZeroHoles ((writes y cs).foldl Store.write t) (run Sys.step y cs).disk := by
  induction cs with
  | nil => exact fun _ h _ => h
  | cons c cs ih =>
    intro y t hw h hv
    obtain ⟨⟨hok, hg, hz⟩, hv⟩ := hv
    rw [writes, List.foldl_append]
    exact ih (step_wf hw hok (hg.safe y)) (h.step hw hok hg hz) hv

/-- A new file system has no files. -/
theorem Sys.Start.zeroHoles {y : Sys} (hy : y.Start) : ZeroHoles .empty y.disk := by
  intro n hn hd o ho
  rw [hy.refines.size n hn hd] at ho
  exact absurd ho (Nat.not_lt_zero o)

/-- `do_read` delivers zero for every byte below the size that no write has covered. -/
def ReadsZeros (y : Sys) (cs : List Call) : Prop :=
  let z := run Sys.step y cs
  ∀ p stack fd buff length, (z.load p stack).isOpen fd → (z.fdescArray fd.toNat).mode ≠ oWronly →
    let n := (z.fdescArray fd.toNat).inodeNum
    let pos := (z.fdescArray fd.toNat).pos
    ∀ o, (stored y cs).byte n o = none → pos ≤ o → o < pos + length.toNat → o < (inode z.disk n).size →
      (doRead (z.load p stack) fd buff length).2.1 (o - pos) = 0#8

/-- Unwritten bytes read as zero, whatever the data area held at `do_mkfs` time, in every run whose writes leave zeros. -/
theorem holes_read_zero {y : Sys} (hy : y.Start) {cs : List Call}
    (hv : Valid Sys.step (fun y c => c.Clean y) y cs) : ReadsZeros y cs := by
  unfold ReadsZeros
  intro z p stack fd buff length ho hm n pos o hnone h1 h2 h3
  have hz : SysWf z :=
    run_grows hy.wf (hv.mono (I := SysWf) (fun _ _ h hc => step_wf h hc.1 (hc.2.1.safe _)) (fun _ _ _ hc => ⟨hc.1, hc.2.1⟩)
      hy.wf)
  obtain ⟨hl, hd⟩ := hz.isOpen ho
  obtain ⟨k, t, buff', hk, e, hb⟩ := doRead_spec (hz.load p stack).wf ho hl hd hm buff length
  rw [e]
  have hlt : o - pos < k := by
    rw [hk]
    show _ < min _ ((inode z.disk n).size - pos)
    omega
  show buff' _ = _
  rw [hb, if_pos hlt]
  have hzero := zeroHoles_run hy.wf hy.zeroHoles hv n hl hd o h3 hnone
  rw [← hzero]
  exact congrArg (fileByte z.disk n) (Nat.add_sub_cancel' h1)

/-- A run with a hole inside of a block: two bytes at 0, then two bytes at 8. -/
def holesRun : List Call :=
  [.fs 0 (fun _ => 0#8) (.open [98#8] oRdwr),
    .fs 0 (fun _ => 0#8) (.write 0 (fun _ => 7#8) 2),
    .fs 0 (fun _ => 0#8) (.lseek 0 8 0),
    .fs 0 (fun _ => 0#8) (.write 0 (fun _ => 7#8) 2),
    .fs 0 (fun _ => 0#8) (.lseek 0 0 0)]

set_option maxRecDepth 60000 in
theorem holesRun_clean : Valid Sys.step (fun y c => c.Clean y) boot holesRun := by decide +kernel

/-- On an empty disk its unwritten bytes read as zero. -/
theorem holes_read_zero_holesRun : ReadsZeros boot holesRun := holes_read_zero boot_start holesRun_clean

/-- A machine with old contents in the data area. -/
def dirtyState : State := { blankState with disk := fun a => if a < blkBase then 0#8 else 0xff#8 }

/-- The system made by `do_mkfs` on it. -/
def dirtyBoot : Sys :=
  { boot with
    disk := (doMkfs dirtyState).2.disk
    sb := (doMkfs dirtyState).2.sb
    sbValid := (doMkfs dirtyState).2.sbValid }

theorem dirtyBoot_start : dirtyBoot.Start :=
  ⟨⟨dirtyState, by decide +kernel, rfl, rfl, rfl⟩, fun _ => rfl, fun _ => rfl, fun _ => rfl⟩

/-- There byte 2 of the file, which no write has covered, reads as the old contents. -/
theorem dirty_reads : dirtyBoot.Start ∧ Valid Sys.step (fun y c => c.Ok y ∧ c.Grows) dirtyBoot holesRun ∧
    ¬ ReadsZeros dirtyBoot holesRun := by
  refine ⟨dirtyBoot_start, by decide +kernel, fun h => ?_⟩
  have := h 0 (fun _ => 0#8) 0 (fun _ => 0#8) 10 (by decide +kernel) (by decide +kernel) 2 (by decide +kernel)
    (by decide +kernel) (by decide +kernel) (by decide +kernel)
  revert this
  decide +kernel

end RiscvKernel.Fs
