import RiscvKernel.Fs.Consistency
import RiscvKernel.Fs.Names

/-!
# The blocks of an inode as a map

A caller of `get_physical_block_id` holds the inode in memory and asks for one logical block after
the other. The answers are those of a map from logical blocks to blocks that only grows: a block
once given stays, no block is given twice or used as an index block at the same time, and asking
without `alloc` changes nothing (`getPhysicalBlockId_map`).
-/

namespace RiscvKernel.Fs

open Lib Lib.Forest Lib.Run

/-! ## Sequences of calls -/

/-- A call: the logical block and the flag `alloc`. -/
abbrev Query := ℕ × Bool

/-- What the call for inode `n` returns. -/
def answer (n : ℕ) (x : State × Inode) (q : Query) : ℕ :=
  (getPhysicalBlockId x.1 x.2 n q.1 q.2).1

/-- The disk and the inode in memory after the call. -/
def ask (n : ℕ) (x : State × Inode) (q : Query) : State × Inode :=
  ((getPhysicalBlockId x.1 x.2 n q.1 q.2).2.2, (getPhysicalBlockId x.1 x.2 n q.1 q.2).2.1)

/-- No allocation fails in the call. -/
def Granted (n : ℕ) (x : State × Inode) (q : Query) : Prop := (ask n x q).1.allocFailed = false

instance (n : ℕ) (x : State × Inode) (q : Query) : Decidable (Granted n x q) := by
  unfold Granted; infer_instance

/-- The block map agrees with the pointers, and the inode in memory has the pointers of the one on
the disk. -/
structure InodeTree (n : ℕ) (x : State × Inode) : Prop where
  sb : SbOk x.1
  blk : BlkInv x.1.disk
  live : imap x.1.disk n = true
  ptr : x.2.ptr = (inode x.1.disk n).ptr

/-- Block `b` is an index block of inode `n`: a path that ends before the data. -/
def IsIndex (d : Mem) (n b : ℕ) : Prop :=
  b ≠ 0 ∧ ∃ i ks, Shape d (n, i) ks ∧ ks.length < i - 9 ∧ ref (cells d) (n, i) ks = b

section Step

variable {n : ℕ} {x : State × Inode} (h : InodeTree n x) {l : ℕ}

include h

/-- Without `alloc`. -/
theorem ask_false (hl : l < maxBlocks) :
    answer n x (l, false) = pblk x.1.disk n l ∧
      ∃ t, ask n x (l, false) = (x.1.put x.1.disk t, x.2) := by
  obtain ⟨t, e⟩ := getPhysicalBlockId_false (h.blk.pathOk h.live hl) h.ptr hl
  unfold answer ask
  rw [e]
  exact ⟨rfl, t, rfl⟩

/-- With `alloc`, a block is there afterwards, and it is the one that is returned. -/
theorem ask_true (hl : l < maxBlocks) (hg : Granted n x (l, true)) :
    InodeTree n (ask n x (l, true)) ∧ Grow n l x.1.disk (ask n x (l, true)).1.disk ∧
      answer n x (l, true) = pblk (ask n x (l, true)).1.disk n l ∧
      pblk (ask n x (l, true)).1.disk n l ≠ 0 := by
  obtain ⟨d, t, node', e, hG, h0, hN, -⟩ := getPhysicalBlockId_grow h.sb h.blk h.live h.ptr hl hg
  unfold answer ask
  rw [e]
  exact ⟨⟨h.sb.put (hG.sb h.sb.on) t, hG.inv, (hG.imap n).trans h.live, hN.ptr⟩, hG, rfl, h0⟩

omit h in
/-- Behind the last logical block. -/
theorem ask_beyond (x : State × Inode) (a : Bool) (hl : maxBlocks ≤ l) :
    answer n x (l, a) = neg1 ∧ ask n x (l, a) = x := by
  unfold maxBlocks at hl
  have e : getPhysicalBlockId x.1 x.2 n l a = (neg1, x.2, x.1) := by
    unfold getPhysicalBlockId
    dsimp only [directBlockNum, indirectBlockNum, doubleIndirectBlockNum]
    rw [if_neg (by omega), if_neg (by omega), if_neg (by omega)]
  unfold answer ask
  rw [e]
  exact ⟨rfl, rfl⟩

/-- One call keeps the tree, and only the logical block that is asked for may get a block. -/
theorem ask_step {q : Query} (hg : Granted n x q) :
    InodeTree n (ask n x q) ∧ (∀ k, pblk x.1.disk n k ≠ 0 →
      pblk (ask n x q).1.disk n k = pblk x.1.disk n k) ∧
    ∀ k, q ≠ (k, true) → pblk (ask n x q).1.disk n k = pblk x.1.disk n k := by
  obtain ⟨l, a⟩ := q
  by_cases hl : l < maxBlocks
  · cases a with
    | false =>
      obtain ⟨-, t, e⟩ := ask_false h hl
      rw [e]
      exact ⟨⟨h.sb.put h.sb.on t, h.blk, h.live, h.ptr⟩, fun _ _ => rfl, fun _ _ => rfl⟩
    | true =>
      obtain ⟨h1, hG, -, -⟩ := ask_true h hl hg
      refine ⟨h1, fun k => hG.pblk_eq h.live, fun k hk => hG.pblk_ne n k h.live ?_⟩
      rintro ⟨-, rfl⟩
      exact hk rfl
  · rw [(ask_beyond x a (not_lt.mp hl)).2]
    exact ⟨h, fun _ _ => rfl, fun _ _ => rfl⟩

/-- A block that is there is the answer to both calls. -/
theorem answer_of_ne (hl : l < maxBlocks) (h0 : pblk x.1.disk n l ≠ 0) (a : Bool) :
    answer n x (l, a) = pblk x.1.disk n l := by
  cases a with
  | false => exact (ask_false h hl).1
  | true =>
    obtain ⟨t, e⟩ := getPhysicalBlockId_there (h.blk.pathOk h.live hl) h.ptr hl h0
    unfold answer
    rw [e]

/-- A data block belongs to one logical block, and it is no index block. -/
theorem pblk_exclusive (hl : l < maxBlocks) (h0 : pblk x.1.disk n l ≠ 0) :
    (∀ k, k ≠ l → pblk x.1.disk n k ≠ pblk x.1.disk n l) ∧
      ¬ IsIndex x.1.disk n (pblk x.1.disk n l) := by
  refine ⟨fun k hk e => hk (h.blk.pblk_inj h.live h.live h0 e.symm).2.symm, ?_⟩
  rintro ⟨-, i, ks, hs, hlen, e⟩
  obtain ⟨e1, e2⟩ := h.blk.owned.inj (blockPath_shape h.live hl) hs e.symm h0
  have h1 := blockPath_length l
  simp only [Prod.mk.injEq, true_and] at e1
  rw [e1, e2] at h1
  omega

end Step

/-! ## Runs -/

section Runs

variable {n : ℕ} {x : State × Inode} {qs : List Query}

theorem run_tree (h : InodeTree n x) (hv : Valid (ask n) (Granted n) x qs) :
    InodeTree n (run (ask n) x qs) :=
  hv.inv (I := InodeTree n) (fun _ _ h hg => (ask_step h hg).1) h

/-- A block that is there stays. -/
theorem run_keeps (h : InodeTree n x) (hv : Valid (ask n) (Granted n) x qs) {k : ℕ}
    (h0 : pblk x.1.disk n k ≠ 0) :
    pblk (run (ask n) x qs).1.disk n k = pblk x.1.disk n k := by
  induction qs generalizing x with
  | nil => rfl
  | cons q qs ih =>
    obtain ⟨h1, h2, -⟩ := ask_step h hv.1
    rw [run, ih h1 hv.2 (by rwa [h2 k h0]), h2 k h0]

/-- The logical blocks with a block are those that had one and those that were asked for. -/
theorem run_hole (h : InodeTree n x) (hv : Valid (ask n) (Granted n) x qs) {k : ℕ}
    (hk : k < maxBlocks) :
    pblk (run (ask n) x qs).1.disk n k = 0 ↔ pblk x.1.disk n k = 0 ∧ (k, true) ∉ qs := by
  induction qs generalizing x with
  | nil => simp [run]
  | cons q qs ih =>
    obtain ⟨h1, h2, h3⟩ := ask_step h hv.1
    rw [run, ih h1 hv.2, List.mem_cons, not_or, ← and_assoc]
    refine and_congr_left fun _ => ?_
    by_cases hq : q = (k, true)
    · -- this call has given the block
      subst hq
      exact iff_of_false (ask_true h hk hv.1).2.2.2 fun hc => hc.2 rfl
    · rw [h3 k hq]
      exact (and_iff_left fun e => hq e.symm).symm

end Runs

/-- The answers of `get_physical_block_id` to the calls after `qs` are those of an injective map
that only grows. -/
structure GrowingMap (n : ℕ) (x : State × Inode) (qs : List Query) (z : State × Inode) : Prop where
  /-- a call with `alloc` returns a block, the same to all later calls for the logical block -/
  given : ∀ l < maxBlocks, Granted n z (l, true) → answer n z (l, true) ≠ 0 ∧
    answer n z (l, true) ≠ neg1 ∧ ∀ rs, Valid (ask n) (Granted n) (ask n z (l, true)) rs →
      ∀ a, answer n (run (ask n) (ask n z (l, true)) rs) (l, a) = answer n z (l, true)
  /-- it changes no other answer -/
  others : ∀ l, Granted n z (l, true) → ∀ k, k ≠ l →
    answer n (ask n z (l, true)) (k, false) = answer n z (k, false) ∧
      (answer n z (k, false) ≠ 0 → answer n (ask n z (l, true)) (k, true) = answer n z (k, true))
  /-- no block is given to two logical blocks, or is an index block -/
  distinct : ∀ l < maxBlocks, answer n z (l, false) ≠ 0 →
    (∀ k < maxBlocks, k ≠ l → answer n z (k, false) ≠ answer n z (l, false)) ∧
      ¬ IsIndex z.1.disk n (answer n z (l, false))
  /-- a call without `alloc` tells whether the logical block has been allocated, and writes nothing -/
  hole : ∀ l < maxBlocks, (answer n z (l, false) = 0 ↔ answer n x (l, false) = 0 ∧ (l, true) ∉ qs) ∧
    (ask n z (l, false)).1.disk = z.1.disk ∧ (ask n z (l, false)).2 = z.2
  /-- there are no more logical blocks -/
  beyond : ∀ l, maxBlocks ≤ l → ∀ a, answer n z (l, a) = neg1 ∧ ask n z (l, a) = z

/-- After every sequence of calls from a consistent inode tree. -/
theorem getPhysicalBlockId_map {n : ℕ} {x : State × Inode} (h : InodeTree n x) {qs : List Query}
    (hv : Valid (ask n) (Granted n) x qs) : GrowingMap n x qs (run (ask n) x qs) := by
  have hole := fun k => run_hole h hv (k := k)
  have hz := run_tree h hv
  generalize run (ask n) x qs = z at *
  refine ⟨fun l hl hg => ?_, fun l hg k hk => ?_, fun l hl h0 => ?_, fun l hl => ?_,
    fun l hl a => ask_beyond z a hl⟩
  · obtain ⟨h1, -, e, h0⟩ := ask_true hz hl hg
    refine ⟨by rwa [e], by rw [e]; exact ne_neg1 (h1.blk.pblk_lt h1.live l), fun rs hrs a => ?_⟩
    have hkeep := run_keeps h1 hrs h0
    rw [answer_of_ne (run_tree h1 hrs) hl (by rwa [hkeep]) a, hkeep, e]
  · obtain ⟨h1, -, h3⟩ := ask_step hz hg
    have hp := h3 k fun e => hk (congrArg Prod.fst e).symm
    by_cases hkm : k < maxBlocks
    · rw [(ask_false h1 hkm).1, (ask_false hz hkm).1, hp]
      exact ⟨rfl, fun h0 => by rw [answer_of_ne h1 hkm (by rwa [hp]), answer_of_ne hz hkm h0, hp]⟩
    · have hb := fun y a => (ask_beyond (n := n) y a (not_lt.mp hkm)).1
      exact ⟨(hb _ _).trans (hb _ _).symm, fun _ => (hb _ _).trans (hb _ _).symm⟩
  · rw [(ask_false hz hl).1] at h0 ⊢
    obtain ⟨h1, h2⟩ := pblk_exclusive hz hl h0
    exact ⟨fun k hk hne => by rw [(ask_false hz hk).1]; exact h1 k hne, h2⟩
  · obtain ⟨e, t, e'⟩ := ask_false hz hl
    rw [e, (ask_false h hl).1, e']
    exact ⟨hole l hl, rfl, rfl⟩

/-- For the file of `growthRun`, with calls on both sides of the direct blocks. -/
theorem getPhysicalBlockId_map_growthRun :
    let x := (stateAfter growthRun, inode (stateAfter growthRun).disk 2)
    let qs : List Query := [(0, false), (12, true), (9, true), (12, false), (maxBlocks, true)]
    GrowingMap 2 x qs (run (ask 2) x qs) :=
  have hw := stateAfter_wf growthRun_valid
  getPhysicalBlockId_map ⟨hw.sbOk, hw.wf.blk, by decide +kernel, rfl⟩ (by decide +kernel)

end RiscvKernel.Fs
