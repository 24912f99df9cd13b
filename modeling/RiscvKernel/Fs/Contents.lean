import RiscvKernel.Fs.Consistency

/-!
# File contents

The abstract model of the files is a store of bytes: for every inode the bytes that have been
written and the largest end of a write. `do_write` writes to the store, everything else leaves it
alone. While the file system grows, the disk refines the store (`Refines`): the bytes of the store
are the bytes of the files and its sizes are their sizes.
-/

namespace RiscvKernel.Fs

open Lib Lib.Run

/-! ## The store -/

/-- The bytes written to the inodes, and their sizes. -/
structure Store where
  byte : ℕ → ℕ → Option Byte
  size : ℕ → ℕ

/-- Nothing is written yet. -/
def Store.empty : Store := ⟨fun _ _ => none, fun _ => 0⟩

/-- A write replaces the bytes it covers, and the size becomes its end if that is larger. -/
def Store.write (t : Store) (w : Write) : Store where
  byte n o := if n = w.n ∧ w.pos ≤ o ∧ o < w.pos + w.len then some (w.buff (o - w.pos))
    else t.byte n o
  size n := if n = w.n ∧ 0 < w.len then max (t.size n) (w.pos + w.len) else t.size n

/-- The writes of a run, the oldest first. -/
def writes : Sys → List Call → List Write
  | _, [] => []
  | y, c :: cs => (c.written y).toList ++ writes (y.step c) cs

/-- The store after a run. -/
def stored (y : Sys) (cs : List Call) : Store := (writes y cs).foldl Store.write .empty

/-! ## Refinement -/

/-- The disk refines the store. -/
structure Refines (t : Store) (d : Mem) : Prop where
  byte : ∀ n o v, t.byte n o = some v →
    pblk d n (o / 4096) ≠ 0 ∧ fileByte d n o = v ∧ o < t.size n
  size : ∀ n, imap d n = true → ¬ isDir d n → (inode d n).size = t.size n
  file : ∀ n, t.size n ≠ 0 → imap d n = true ∧ ¬ isDir d n

/-- Changes that keep the files, and new files that are empty. -/
theorem Refines.keep {t : Store} {d d' : Mem} (h : Refines t d) (hk : Kept d d') :
    Refines t d' where
  byte n o v e := by
    obtain ⟨h1, h2, h3⟩ := h.byte n o v e
    obtain ⟨h4, h5⟩ := h.file n (by omega)
    have hf := hk.files n h4 h5
    exact ⟨by rw [hf.pblk]; exact h1, by rw [hf.fileByte]; exact h2, h3⟩
  size n hn hd := by
    by_cases h0 : imap d n = true
    · have h1 : ¬ isDir d n := fun h2 => hd ((hk.keeps n h0 id).2.mpr h2)
      rw [(hk.files n h0 h1).size, h.size n h0 h1]
    · have hz : t.size n = 0 := by
        by_contra hc
        exact h0 (h.file n hc).1
      rcases hk.new n hn with h1 | h1 | h1
      · exact absurd h1 h0
      · exact absurd h1 hd
      · rw [h1, hz]
        rfl
  file n hz := by
    obtain ⟨h1, h2⟩ := h.file n hz
    obtain ⟨h3, h4⟩ := hk.keeps n h1 id
    exact ⟨h3, fun h5 => h2 (h4.mp h5)⟩

/-- A write. -/
theorem Refines.write {t : Store} {d d' : Mem} (h : Refines t d) {w : Write}
    (hl : imap d w.n = true) (hd : ¬ isDir d w.n)
    (hW : Wrote w.n w.pos w.len w.buff d d') : Refines (t.write w) d' where
  byte n o v e := by
    have hsz := h.size w.n hl hd
    simp only [Store.write] at e ⊢
    by_cases hc : n = w.n ∧ w.pos ≤ o ∧ o < w.pos + w.len
    · rw [if_pos hc] at e
      obtain ⟨rfl, h1, h2⟩ := hc
      obtain ⟨h3, h4⟩ := hW.stored.stored o h1 h2
      cases e
      refine ⟨h3, by rw [h4, Nat.zero_add], ?_⟩
      rw [if_pos ⟨rfl, by omega⟩]
      omega
    · rw [if_neg hc] at e
      obtain ⟨h1, h2, h3⟩ := h.byte n o v e
      have h4 : o < if n = w.n ∧ 0 < w.len then max (t.size n) (w.pos + w.len) else t.size n := by
        split_ifs
        · omega
        · exact h3
      by_cases hn : n = w.n
      · subst hn
        obtain ⟨h5, h6⟩ := hW.stored.kept o (by omega) h1
        exact ⟨h5, h6.trans h2, h4⟩
      · obtain ⟨h5, -⟩ := h.file n (by omega)
        have hf := hW.stored.only.sameFile hn h5
        exact ⟨by rw [hf.pblk]; exact h1, by rw [hf.fileByte]; exact h2, h4⟩
  size n hn hd' := by
    have hk := hW.keeps n (by rwa [hW.stored.only.imap] at hn) id
    have hn0 : imap d n = true := by rwa [hW.stored.only.imap] at hn
    have hd0 : ¬ isDir d n := fun h1 => hd' (hk.2.mpr h1)
    simp only [Store.write]
    by_cases e : n = w.n
    · subst e
      rw [hW.size, h.size _ hn0 hd0]
      simp only [true_and]
    · rw [if_neg fun hc => e hc.1, hW.stored.only.inode_ne n e, h.size n hn0 hd0]
  file n hz := by
    have key : imap d n = true ∧ ¬ isDir d n := by
      simp only [Store.write] at hz
      split_ifs at hz with hc
      · rw [hc.1]
        exact ⟨hl, hd⟩
      · exact h.file n hz
    obtain ⟨h1, h2⟩ := hW.keeps n key.1 id
    exact ⟨h1, fun h3 => key.2 (h2.mp h3)⟩

/-- A step of a growing file system. -/
theorem Refines.step {t : Store} {y : Sys} (h : Refines t y.disk) (hw : SysWf y) {c : Call}
    (hok : c.Ok y) (hc : c.Grows) :
    Refines ((c.written y).toList.foldl Store.write t) (y.step c).disk := by
  cases step_effect hw hok (hc.safe y) with
  | same hn e =>
    rw [hn, e]
    exact h
  | create n hn hd hA hi =>
    rw [hn]
    exact h.keep (hA.kept_new hd hi)
  | link f hn hf hd hA =>
    rw [hn]
    exact h.keep (hA.kept_old hf hd)
  | mkdir n hn hA =>
    rw [hn]
    exact h.keep hA.kept
  | unlink p stack path e =>
    rw [e] at hc
    exact hc.elim
  | rmdir p stack path e =>
    rw [e] at hc
    exact hc.elim
  | write w hn hl hd hW =>
    rw [hn]
    exact h.write hl hd hW

theorem refines_run {cs : List Call} : ∀ {y : Sys} {t : Store}, SysWf y → Refines t y.disk →
    Valid Sys.step (fun y c => c.Ok y ∧ c.Grows) y cs →
    Refines ((writes y cs).foldl Store.write t) (run Sys.step y cs).disk := by
  induction cs with
  | nil => exact fun _ h _ => h
  | cons c cs ih =>
    intro y t hw h hv
    rw [writes, List.foldl_append]
    exact ih (step_wf hw hv.1.1 (hv.1.2.safe y)) (h.step hw hv.1.1 hv.1.2) hv.2

theorem Sys.Start.refines {y : Sys} (hy : y.Start) : Refines .empty y.disk where
  byte _ _ _ e := by cases e
  size n hn hd := by
    obtain ⟨s, h0, h1, -⟩ := hy.mkfs
    obtain ⟨d, t, e, hN⟩ := doMkfs_spec h0
    rw [h1, e, State.put_disk] at hn hd
    have hn0 : n = 0 := of_decide_eq_true ((hN.imap n).symm.trans hn)
    exact absurd (hn0 ▸ hN.wf.tree.root_dir) hd
  file n hz := absurd rfl hz

end RiscvKernel.Fs
