import RiscvKernel.Fs.View

/-!
# Where the blocks lie

The block map has a bit for each of the `fsBlockNum` blocks of the whole file system, but block 0
starts at the data area, behind the superblock, the maps and the inode table. So the last blocks of
the map reach beyond the file system. `alloc_block` takes the first clear bit
(`allocBlock_least`), and its block lies inside the file system exactly when a bit below
`insideBlocks` is clear (`allocBlock_inside_iff`).
-/

namespace RiscvKernel.Fs

open Lib

/-! ## The first clear bit -/

/-- All the bits before the one the search finds are set. -/
theorem findClear_least {d : Mem} {a n i j t : ℕ} (hs : a + n < 2 ^ 32)
    (h : findClear d a n = some (i, j, t)) {k : ℕ} (hk : k < i * 4096 + j * 8 + t) :
    bit d (512 * a) k = true := by
  unfold findClear at h
  obtain ⟨i', -, hi, h1, hi0⟩ := scan_eq_some.mp h
  obtain ⟨j', -, hj, h2, hj0⟩ := scan_eq_some.mp h1
  obtain ⟨t', ht, e⟩ := Option.map_eq_some_iff.mp h2
  cases e
  obtain ⟨ht8, -, ht0⟩ := clearBitIn_some ht
  have hb : ∀ x y z : ℕ, x * 4096 + y * 8 + z = k → y < 512 → z < 8 →
      (sdSector d (a + x) y).getLsbD z = true → bit d (512 * a) k = true := by
    intro x y z hxyz hy hz hset
    unfold bit
    unfold sdSector at hset
    rw [show k % 8 = z by omega,
      show 512 * a + k / 8 = sectorSize * (a + x) + y by simp only [sectorSize]; omega]
    exact hset
  simp only [sectorSize] at hj
  -- the position is in an earlier sector, in an earlier byte, or an earlier bit of the byte
  rcases Nat.lt_trichotomy (k / 4096) i with hlt | heq | hgt
  · have hx := scan_eq_none.mp (hi0 (k / 4096) (Nat.zero_le _) hlt) (k % 4096 / 8)
      (Nat.zero_le _) (by simp only [sectorSize]; omega)
    rw [Option.map_eq_none_iff, u32_of_lt (by omega)] at hx
    exact hb _ _ (k % 8) (by omega) (by omega) (by omega) (clearBitIn_none hx (by omega))
  · rw [u32_of_lt (by omega)] at ht0 hj0
    rcases Nat.lt_trichotomy (k % 4096 / 8) j with hlt | hje | hgt
    · have hx := hj0 (k % 4096 / 8) (Nat.zero_le _) hlt
      rw [Option.map_eq_none_iff] at hx
      exact hb i _ (k % 8) (by omega) (by omega) (by omega) (clearBitIn_none hx (by omega))
    · exact hb i j (k % 8) (by omega) (by omega) (by omega) (ht0 _ (by omega))
    · omega
  · omega

/-- Both allocators: all the bits before the one they return are set. -/
theorem allocIn_least {s : State} (hv : s.sbValid = true) {f : Superblock → ℕ} {n : ℕ}
    (hs : f s.sb + n < 2 ^ 32) (h : (allocIn s f n).1 ≠ neg1) {k : ℕ} (hk : k < (allocIn s f n).1) :
    bit s.disk (512 * f s.sb) k = true := by
  unfold allocIn at h hk
  rw [if_pos hv] at h hk
  cases hc : findClear s.disk (f s.sb) n with
  | none =>
    simp only [hc] at h
    exact absurd rfl h
  | some r =>
    obtain ⟨i, j, t⟩ := r
    simp only [hc, sectorSize] at hk
    exact findClear_least hs hc (by omega)

/-- `alloc_block` returns the first block whose bit is clear. -/
theorem allocBlock_least {s : State} (hs : SbOk s) (h : (allocBlock s).1 ≠ neg1) {k : ℕ}
    (hk : k < (allocBlock s).1) : bmap s.disk k = true := by
  have ha : 512 * (s.sb.startSector + s.sb.blockMapOffset) = bmapBase := by rw [hs.sb]; rfl
  have hlt : (allocBlock s).1 < 131072 := by
    rcases allocBlock_spec hs with ⟨b, hb, -, e⟩ | ⟨-, e⟩
    · rwa [e]
    · rw [e] at h
      exact absurd rfl h
  have hset := allocIn_least hs.valid (f := fun sb => sb.startSector + sb.blockMapOffset)
    (by rw [hs.sb]; decide) h hk
  simp only [ha] at hset
  unfold bmap
  rw [hset, decide_eq_true (by omega), Bool.true_and]

/-! ## The end of the file system -/

/-- The sectors `write_block` addresses for block `b` lie in the file system of the superblock. -/
def Inside (sb : Superblock) (b : ℕ) : Prop :=
  sb.startSector ≤ blockSector b ∧ blockSector b + sectorsPerBlock ≤ sb.startSector + sb.fsSize

instance (sb : Superblock) (b : ℕ) : Decidable (Inside sb b) := by unfold Inside; infer_instance

/-- The number of blocks that fit behind the inode table. -/
abbrev insideBlocks : ℕ := (fsSize / sectorSize - (blockBase - fsStartSector)) / sectorsPerBlock

theorem inside_iff {b : ℕ} (hb : b < 131072) : Inside mkfsSb b ↔ b < insideBlocks := by
  have e := blockSector_eq hb
  unfold blkBase at e
  unfold Inside
  show 2 ^ 20 ≤ blockSector b ∧ blockSector b + 8 ≤ 2 ^ 20 + 2 ^ 20 ↔ b < 131003
  omega

/-- The block `alloc_block` returns lies in the file system if and only if one of the blocks that
do is free, or no block is. -/
theorem allocBlock_inside_iff {s : State} (hs : SbOk s) :
    ((allocBlock s).1 ≠ neg1 → Inside s.sb (allocBlock s).1) ↔
      (∃ b < insideBlocks, bmap s.disk b = false) ∨ ∀ b < fsBlockNum, bmap s.disk b = true := by
  rw [hs.sb]
  constructor
  · intro h
    rcases allocBlock_spec hs with ⟨b, hb, hfree, e⟩ | ⟨hfull, -⟩
    · rw [e] at h
      exact Or.inl ⟨b, (inside_iff hb).mp (h (ne_neg1 hb)), hfree⟩
    · exact Or.inr hfull
  · intro h hne
    rcases allocBlock_spec hs with ⟨b, hb, hfree, e⟩ | ⟨-, e⟩
    · rcases h with ⟨c, hc, hcfree⟩ | hfull
      · have hbc : (allocBlock s).1 ≤ c := by
          by_contra hlt
          have := allocBlock_least hs hne (k := c) (by omega)
          rw [hcfree] at this
          cases this
        rw [e] at hbc ⊢
        exact (inside_iff hb).mpr (by omega)
      · have := hfull b hb
        rw [hfree] at this
        cases this
    · rw [e] at hne
      exact absurd rfl hne

/-! ## Two disks -/

/-- A disk with the superblock of `do_mkfs` and the block map `m`. -/
def withMap (m : Mem) : State where
  disk a :=
    if a < imapBase then mkfsSb.encode (a - sbBase)
    else if bmapBase ≤ a then m (a - bmapBase)
    else 0#8
  temp := fun _ => 0#8
  stack := fun _ => 0#8
  sb := mkfsSb
  sbValid := true
  fdescArray := fun _ => ⟨0, 0, 0, 0⟩
  fdescArrayTools := fun _ => ⟨0, 0, 0, 0⟩
  dirInode := 0
  allocFailed := false

theorem withMap_sbOk (m : Mem) : SbOk (withMap m) where
  valid := rfl
  sb := rfl
  on i hi := by
    unfold withMap
    dsimp only
    rw [if_pos (by have := bases; omega), Nat.add_sub_cancel_left]

theorem bmap_withMap (m : Mem) {b : ℕ} (hb : b < 131072) :
    bmap (withMap m).disk b = (m (b / 8)).getLsbD (b % 8) := by
  unfold bmap bit withMap
  rw [decide_eq_true hb, Bool.true_and]
  dsimp only
  rw [if_neg (by have := bases; omega), if_pos (by omega), Nat.add_sub_cancel_left]

/-- With a free block at the start of the map. -/
theorem allocBlock_inside_withMap :
    Inside (withMap fun _ => 0#8).sb (allocBlock (withMap fun _ => 0#8)).1 :=
  (allocBlock_inside_iff (withMap_sbOk _)).mpr (Or.inl ⟨0, by norm_num, by
    rw [bmap_withMap _ (by norm_num)]; rfl⟩) (by decide +kernel)

/-- A block map with the bits below `insideBlocks` set and the others clear. -/
def almostFull : Mem := fun i =>
  if i < insideBlocks / 8 then 0xff#8 else if i = insideBlocks / 8 then 7#8 else 0#8

theorem bmap_almostFull {b : ℕ} (hb : b < 131072) :
    bmap (withMap almostFull).disk b = decide (b < insideBlocks) := by
  rw [bmap_withMap _ hb]
  unfold almostFull
  show (if b / 8 < 16375 then 0xff#8 else if b / 8 = 16375 then 7#8 else 0#8).getLsbD (b % 8) =
    decide (b < 131003)
  have h8 : b % 8 < 8 := Nat.mod_lt _ (by norm_num)
  split_ifs with h1 h2
  · rw [decide_eq_true (by omega)]
    generalize b % 8 = r at h8
    interval_cases r <;> decide
  · have hlt : b < 131003 ↔ b % 8 < 3 := by omega
    have hbits : ∀ r < 8, (7#8).getLsbD r = decide (r < 3) := by decide
    rw [hbits _ h8]
    exact (decide_eq_decide.mpr hlt).symm
  · rw [decide_eq_false (by omega)]
    exact BitVec.getLsbD_zero

/-- With the blocks that lie in the file system all in use, `alloc_block` returns one beyond its
end. -/
theorem allocBlock_almostFull : (allocBlock (withMap almostFull)).1 ≠ neg1 ∧
    ¬ Inside (withMap almostFull).sb (allocBlock (withMap almostFull)).1 := by
  rcases allocBlock_spec (withMap_sbOk almostFull) with ⟨b, hb, hclear, e⟩ | ⟨hfull, -⟩
  · rw [e]
    refine ⟨ne_neg1 hb, fun hin => ?_⟩
    rw [bmap_almostFull hb, decide_eq_true ((inside_iff hb).mp hin)] at hclear
    cases hclear
  · have hset := hfull 131003 (by norm_num)
    rw [bmap_almostFull (by norm_num)] at hset
    exact absurd hset (by decide)

end RiscvKernel.Fs
