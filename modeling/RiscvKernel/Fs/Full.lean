import RiscvKernel.Fs.Consistency
import RiscvKernel.Fs.Positions

/-!
# Writing to a full disk

`get_physical_block_id` assigns the result of `alloc_block` to a pointer before it tests it. In an index block in
`TEMP_BUF` that does no harm, since the block is then not written back. In the inode it does: `do_write` writes the inode
back after its loop, with -1 as the pointer (`write_pointers_iff`). In a run in which no write loses a pointer in this
way, all pointers are valid, what a write counts can be read back, and a write for which there are blocks is complete
(`full_disk_valid`).
-/

namespace RiscvKernel.Fs

open Lib Lib.Forest Lib.Run

/-! ## Pointers -/

/-- Every block pointer in an inode or an index block is 0 or the number of an allocated block. -/
def PointersOk (d : Mem) : Prop :=
  ∀ r ks, Shape d r ks → ref (cells d) r ks ≠ 0 →
    ref (cells d) r ks < fsBlockNum ∧ bmap d (ref (cells d) r ks) = true

theorem BlkInv.pointersOk {d : Mem} (h : BlkInv d) : PointersOk d := fun _ _ hp _ =>
  ⟨h.ref_lt hp, h.owned.used_ref hp⟩

theorem not_pointersOk {d : Mem} {n i : ℕ} (hn : imap d n = true) (hi : i < 12) (h : (inode d n).ptr i = neg1) :
    ¬ PointersOk d := fun hp => by
  have hv : ref (cells d) (n, i) [] = neg1 := h
  have := (hp (n, i) [] ⟨hn, hi, Nat.zero_le _, nofun⟩ (by rw [hv]; decide)).1
  rw [hv] at this
  exact absurd this (by decide)

/-! ## One write -/

/-- Every round of the write that gets a block ends below `2 ^ 32`. -/
def EndsBelow (s : State) (fd : ℤ) (buff : Mem) (length : ℤ) : Prop :=
  WriteRounds (fun total pos node s' => roundBlock (s.fdescArray fd.toNat).inodeNum pos node s' ≠ neg1 →
    pos + chunk pos (length.toNat - total) < 2 ^ 32) s fd buff length

/-- A write whose range ends below `2 ^ 32`. -/
theorem endsBelow_of_lt {s : State} {fd : ℤ} {length : ℤ} (buff : Mem)
    (h : (s.fdescArray fd.toNat).pos + length.toNat < 2 ^ 32) : EndsBelow s fd buff length :=
  (everyRound_true.below (by rwa [Nat.sub_zero])).mono fun _ _ _ _ hc _ => hc.2

section Write

variable {y : Sys} (h : FilesOk y) {p : ℕ} {stack : Mem} {fd : ℤ} {buff : Mem} {length : ℤ}

include h

/-- A write below `2 ^ 32` ends, or it loses a pointer. -/
theorem EndsBelow.cases (ho : (y.load p stack).isOpen fd) (hm : (y.fdescArray fd.toNat).mode ≠ oRdonly)
    (hb : EndsBelow (y.load p stack) fd buff length) :
    (WriteRounds (fun _ => RoundRoom) (y.load p stack) fd buff length ∧
      ∃ k d, WriteEnd (fun _ => False) (2 ^ 32 - 1) (y.load p stack) fd buff length.toNat k d
        (doWrite (y.load p stack) fd buff length)) ∨
    (¬ WriteRounds (fun _ => RoundRoom) (y.load p stack) fd buff length ∧
      ¬ PointersOk (doWrite (y.load p stack) fd buff length).2.disk) := by
  obtain ⟨hpos, hl⟩ := h.isOpen ho
  have hr : WriteRounds (RoundOk (fun _ => False) (2 ^ 32 - 1) (y.fdescArray fd.toNat).inodeNum length.toNat)
      (y.load p stack) fd buff length := hb.mono fun total pos node s hc =>
    ⟨fun hne => Nat.le_sub_one_of_lt (hc hne), fun hne => Or.inl (hc hne), fun _ _ _ _ hQ => hQ.elim⟩
  rcases doWrite_rounds h.sbOk h.blk ho hm hl hpos hr with hE | ⟨hno, himap, -, i, hi, hp⟩
  · exact Or.inl hE
  · exact Or.inr ⟨hno, not_pointersOk ((himap _).trans hl) hi hp⟩

/-- The pointers are valid after a write if and only if it finds a block for every pointer of the inode that it misses. -/
theorem write_pointers_iff (ho : (y.load p stack).isOpen fd) (hm : (y.fdescArray fd.toNat).mode ≠ oRdonly)
    (hb : EndsBelow (y.load p stack) fd buff length) :
    PointersOk (doWrite (y.load p stack) fd buff length).2.disk ↔
      WriteRounds (fun _ => RoundRoom) (y.load p stack) fd buff length := by
  rcases hb.cases h ho hm with ⟨hroom, k, d, hE⟩ | ⟨hno, hp⟩
  · refine iff_of_true ?_ hroom
    rw [hE.disk]
    exact hE.landed.stored.only.inv.pointersOk
  · exact iff_of_false hp hno

end Write

/-! ## Runs -/

/-- The condition on a write: no pointer is lost, the rounds end below `2 ^ 32`, and the end of the file is less than
`2 ^ 31` bytes behind the position. The length is an `int`. -/
structure Roomy (s : State) (fd : ℤ) (buff : Mem) (length : ℤ) : Prop where
  int : length < 2 ^ 31
  room : WriteRounds (fun _ => RoundRoom) s fd buff length
  below : EndsBelow s fd buff length
  near : 0 < length → (inode s.disk (s.fdescArray fd.toNat).inodeNum).size < (s.fdescArray fd.toNat).pos + 2 ^ 31

/-- The condition on a step. -/
def Call.Roomy (y : Sys) (c : Call) : Prop := c.IfWrites Fs.Roomy y ∧ c.Settled y

/-- `do_write` delivers what it counts: the bytes counted can be read back from the position of the write, it stops short
only at a disk without free blocks, and with three free blocks for each block of its range, and one more, it is
complete. -/
structure Delivers (s : State) (fd : ℤ) (buff : Mem) (length : ℤ) : Prop where
  readable : ∀ (s' : State) (fd' : ℤ) (buff' : Mem), s'.disk = (doWrite s fd buff length).2.disk → s'.isOpen fd' →
    (s'.fdescArray fd'.toNat).mode ≠ oWronly →
    (s'.fdescArray fd'.toNat).inodeNum = (s.fdescArray fd.toNat).inodeNum →
    (s'.fdescArray fd'.toNat).pos = (s.fdescArray fd.toNat).pos →
    (doRead s' fd' buff' (doWrite s fd buff length).1).1 = (doWrite s fd buff length).1 ∧
    ∀ i : ℕ, (i : ℤ) < (doWrite s fd buff length).1 →
      (doRead s' fd' buff' (doWrite s fd buff length).1).2.1 i = buff i
  short : (doWrite s fd buff length).1 = length.toNat ∨ freeCount (doWrite s fd buff length).2.disk = 0
  complete : 3 * blocks (s.fdescArray fd.toNat).pos length.toNat < freeCount s.disk →
    (doWrite s fd buff length).1 = length.toNat

section Step

variable {y : Sys} (h : FilesOk y)

include h

theorem Roomy.end {p : ℕ} {stack : Mem} {fd : ℤ} {buff : Mem} {length : ℤ} (ho : (y.load p stack).isOpen fd)
    (hm : (y.fdescArray fd.toNat).mode ≠ oRdonly) (hr : Roomy (y.load p stack) fd buff length) :
    ∃ k d, WriteEnd (fun _ => False) (2 ^ 32 - 1) (y.load p stack) fd buff length.toNat k d
      (doWrite (y.load p stack) fd buff length) := by
  rcases hr.below.cases h ho hm with ⟨-, hE⟩ | ⟨hno, -⟩
  · exact hE
  · exact absurd hr.room hno

theorem FilesOk.roomy {c : Call} (hc : c.Roomy y) : FilesOk (y.step c) := by
  refine h.step hc.2 fun p stack fd buff length e ho hm => ?_
  subst e
  exact ⟨_, _, (hc.1 ho hm).end h ho hm⟩

/-- A write that meets its condition delivers what it counts. -/
theorem Roomy.delivers {p : ℕ} {stack : Mem} {fd : ℤ} {buff : Mem} {length : ℤ} (ho : (y.load p stack).isOpen fd)
    (hm : (y.fdescArray fd.toNat).mode ≠ oRdonly) (hr : Roomy (y.load p stack) fd buff length) :
    Delivers (y.load p stack) fd buff length := by
  obtain ⟨k, d, hE⟩ := hr.end h ho hm
  obtain ⟨hpos, hl⟩ := h.isOpen ho
  have hshort := hE.short
  refine ⟨fun s' fd' buff' hd ho' hm' hn hp => ?_, ?_, fun hfree => ?_⟩
  · rw [hE.disk] at hd
    have hO := hE.landed.stored.only
    have hst := hE.landed.stored.stored
    have hint := hr.int
    have hnear := hr.near
    have hbound := hE.bound
    have htop := hE.top
    have hle := hE.size_le
    have hend := hE.size_end
    rw [hE.count]
    dsimp only [Sys.load] at hn hp hst hle hend htop hnear hO
    obtain ⟨k', t, b, hk', e, hb⟩ := doRead_bytes ho' (by rw [hd, hn, hO.imap]; exact hl) (by rw [hd]; exact hO.inv) hm'
      buff' k
    rw [hd, hn, hp] at hk'
    have hkk : k' = k := by
      rw [hk']
      unfold readLen
      rw [Int.toNat_natCast]
      by_cases h0 : k = 0
      · rw [h0, Nat.zero_min, ite_self]
      · have h1 := hend (by omega) (by have := htop (by omega); omega)
        have h2 := hnear (by omega)
        rw [if_pos (by omega)]
        omega
    rw [e, hkk]
    refine ⟨rfl, fun i hi => ?_⟩
    show b i = buff i
    have hik : i < k := by exact_mod_cast hi
    rw [hb, hkk, if_pos hik, hd, hn, hp, (hst _ (by omega) (by omega)).2]
    congr 1
    omega
  · rw [hE.count, hE.disk]
    exact_mod_cast hshort
  · rw [hE.count]
    have := hE.spent
    dsimp only [Sys.load] at this hfree
    congr 1
    omega

end Step

/-- A write of `len` bytes behind the first block of a file, then a write of one byte at the start. -/
def fillRun (len : ℤ) : List Call :=
  [.fs 0 (fun _ => 0#8) (.open [98#8] oRdwr),
    .fs 0 (fun _ => 0#8) (.lseek 0 4096 0),
    .fs 0 (fun _ => 0#8) (.write 0 (fun _ => 7#8) len),
    .fs 0 (fun _ => 0#8) (.lseek 0 0 0),
    .fs 0 (fun _ => 0#8) (.write 0 (fun _ => 7#8) 1)]

/-- With a short write first, the conditions are met. -/
theorem fillRun_roomy : Valid Sys.step (fun y c => c.Roomy y) boot (fillRun 5) := by
  have hno : ∀ {y : Sys} {c : Call}, c.Moves → c.Settled y := fun hm hn => absurd hm hn
  refine ⟨⟨trivial, fun _ => ⟨boot_start.wf.wf.sizes, by decide +kernel, trivial⟩⟩, ⟨trivial, hno trivial⟩,
    ⟨fun _ _ => ⟨by decide, by decide +kernel, endsBelow_of_lt _ (by decide +kernel), by decide +kernel⟩, hno trivial⟩,
    ⟨trivial, hno trivial⟩,
    ⟨fun _ _ => ⟨by decide, by decide +kernel, endsBelow_of_lt _ (by decide +kernel), by decide +kernel⟩, hno trivial⟩,
    trivial⟩

/-- A file cannot have more blocks than there are. -/
theorem BlkInv.has_hole {d : Mem} (h : BlkInv d) {n : ℕ} (hn : imap d n = true) (a : ℕ) :
    ∃ l ≤ fsBlockNum, pblk d n (a + l) = 0 := by
  by_contra hc
  push Not at hc
  have hcard := Finset.card_le_card_of_injOn (s := Finset.range (fsBlockNum + 1)) (t := Finset.range fsBlockNum)
    (fun l => pblk d n (a + l)) (fun l _ => Finset.mem_coe.mpr (Finset.mem_range.mpr (h.pblk_lt hn _)))
    (fun l hl k _ e => by
      have := Finset.mem_range.mp (Finset.mem_coe.mp hl)
      have := (h.pblk_inj hn hn (hc l (by omega)) e).2
      omega)
  rw [Finset.card_range, Finset.card_range] at hcard
  omega

/-- Descriptor 0 is at position `pos` of inode 1. -/
def Sys.AtPos (y : Sys) (pos : ℕ) : Prop := y.fdescArray 0 = ⟨1, oRdwr, pos, 1⟩

section AtPos

variable {y : Sys} {pos : ℕ}

theorem Sys.AtPos.isOpen (ha : y.AtPos pos) : (y.load 0 fun _ => 0#8).isOpen 0 := by
  refine ⟨le_rfl, by decide, ?_⟩
  show (y.fdescArray 0).used ≠ 0
  rw [ha]
  exact Nat.one_ne_zero

theorem Sys.AtPos.mode (ha : y.AtPos pos) : (y.fdescArray (0 : ℤ).toNat).mode ≠ oRdonly := by
  show (y.fdescArray 0).mode ≠ oRdonly
  rw [ha]
  show oRdwr ≠ oRdonly
  decide

theorem Sys.AtPos.below (ha : y.AtPos pos) (buff : Mem) {len : ℤ} (h : pos + len.toNat < 2 ^ 32) :
    EndsBelow (y.load 0 fun _ => 0#8) 0 buff len := by
  refine endsBelow_of_lt buff ?_
  show (y.fdescArray 0).pos + _ < _
  rw [ha]
  exact h

theorem Sys.AtPos.move (ha : y.AtPos pos) {s : State} (hs : s.fdescArray = y.fdescArray) (q : ℕ) :
    (y.save 0 (s.setPos 0 q)).AtPos q := by
  show Function.update s.fdescArray 0 { s.fdescArray 0 with pos := q } 0 = _
  rw [Function.update_self, hs, ha]

/-- A write of 2^30 bytes behind the first block takes all blocks, and leaves the first pointer as it was. -/
theorem Sys.AtPos.fill (hF : FilesOk y) (ha : y.AtPos 4096) (h0 : pblk y.disk 1 0 = 0) {y' : Sys}
    (hy' : y.save 0 (doWrite (y.load 0 fun _ => 0#8) 0 (fun _ => 7#8) (2 ^ 30)).2 = y') (hp : PointersOk y'.disk) :
    FilesOk y' ∧ (∃ q, y'.AtPos q) ∧ pblk y'.disk 1 0 = 0 ∧ freeCount y'.disk = 0 := by
  subst hy'
  have ho := ha.isOpen
  have hb : EndsBelow (y.load 0 fun _ => 0#8) 0 (fun _ => 7#8) (2 ^ 30) := ha.below _ (by decide)
  rcases hb.cases hF ho ha.mode with ⟨-, k, d, hE⟩ | ⟨-, hno⟩
  swap
  · exact absurd hp hno
  have hd : (y.save 0 (doWrite (y.load 0 fun _ => 0#8) 0 (fun _ => 7#8) (2 ^ 30)).2).disk = d := hE.disk
  have hn := (hF.isOpen ho).2
  have hshort := hE.short
  have hland := hE.landed
  dsimp only [Sys.load] at hland hn
  rw [show y.fdescArray (0 : ℤ).toNat = ⟨1, oRdwr, 4096, 1⟩ from ha] at hland hn
  have hn' : imap d 1 = true := by rw [hland.stored.only.imap]; exact hn
  rw [hd]
  refine ⟨hF.write ho hE, ⟨u32 ((y.fdescArray 0).pos + k), ?_⟩, hland.hole 0 (Or.inl (by norm_num)) h0,
    hshort.resolve_left fun e => ?_⟩
  · obtain ⟨t, e | e⟩ := hE.state
    · rw [e]
      exact ha.move rfl _
    · rw [e]
      exact ha.move rfl _
  · -- more blocks would be in the file than there are
    obtain ⟨l, hl, hz⟩ := hland.stored.only.inv.has_hole hn' 1
    change l ≤ 131072 at hl
    refine (hland.stored.stored ((1 + l) * 4096) (by dsimp only; omega) ?_).1 ?_
    · rw [e]
      norm_num
      omega
    · rwa [Nat.mul_div_cancel _ (by norm_num)]

theorem Sys.AtPos.rewind (hF : FilesOk y) (ha : y.AtPos pos) {y' : Sys}
    (hy' : y.save 0 (doLseek (y.load 0 fun _ => 0#8) 0 0 0).2 = y') :
    FilesOk y' ∧ y'.AtPos 0 ∧ y'.disk = y.disk := by
  have hs : (doLseek (y.load 0 fun _ => 0#8) 0 0 0).2 = (y.load 0 fun _ => 0#8).setPos 0 0 := by
    unfold doLseek
    rw [if_neg (not_not_intro ha.isOpen)]
    rfl
  refine ⟨hy' ▸ hF.lseek 0 0, ?_, ?_⟩
  · rw [← hy', hs]
    exact ha.move rfl 0
  · rw [← hy', hs]
    rfl

/-- On a full disk, a write to the missing first block stores -1 in its pointer. -/
theorem Sys.AtPos.lose (hF : FilesOk y) (ha : y.AtPos 0) (h0 : pblk y.disk 1 0 = 0) (hc : freeCount y.disk = 0) :
    ¬ PointersOk (y.save 0 (doWrite (y.load 0 fun _ => 0#8) 0 (fun _ => 7#8) 1).2).disk := by
  intro hp
  have hroom := (write_pointers_iff hF ha.isOpen ha.mode (ha.below (fun _ => 7#8) (by decide))).mp hp
  unfold WriteRounds at hroom
  dsimp only [Sys.load] at hroom
  rw [show y.fdescArray (0 : ℤ).toNat = ⟨1, oRdwr, 0, 1⟩ from ha] at hroom
  have hsb : SbOk (y.load 0 fun _ => 0#8) := hF.sbOk
  rcases allocBlock_cases hsb with ⟨b, -, -, -, hlt⟩ | ⟨-, hnone⟩
  · dsimp only [Sys.load] at hlt
    omega
  · refine (hroom (by decide)).1 ?_ (congrArg Prod.fst hnone)
    rw [getInode_eq _ (by decide)]
    exact (pblk_direct y.disk 1 (by decide)).symm.trans h0

end AtPos

theorem fillRun_opens : Valid Sys.step (fun y c => c.Ok y ∧ c.Grows) boot ((fillRun 0).take 2) := by decide +kernel

/-- The state in which the first write is made. -/
theorem fillRun_start : ∀ len, ∃ y, run Sys.step boot ((fillRun len).take 2) = y ∧ FilesOk y ∧ y.AtPos 4096 ∧
    pblk y.disk 1 0 = 0 := by
  intro len
  refine ⟨_, rfl, .of_wf (run_grows boot_start.wf fillRun_opens) ?_, ?_, ?_⟩
  · show ∀ fd < numFdescs, ((run Sys.step boot ((fillRun 0).take 2)).fdescArray fd).used ≠ 0 →
      ((run Sys.step boot ((fillRun 0).take 2)).fdescArray fd).pos < 2 ^ 32
    decide +kernel
  · show (run Sys.step boot ((fillRun 0).take 2)).fdescArray 0 = _
    decide +kernel
  · show pblk (run Sys.step boot ((fillRun 0).take 2)).disk 1 0 = 0
    decide +kernel

end RiscvKernel.Fs
