import RiscvKernel.Fs.Region

/-!
# The regions of the disk

Behind each other on the disk lie the superblock, the inode map, the block map, the inode table and
the data blocks. The two maps are arrays of bits and the inode table is an array of inodes, and no
tool function writes outside of its own region (`tools_arrays`). The allocators and the free functions
find the maps through the superblock, the others through the macros of `fs.h`; `OnlyIn` speaks of the
superblock's regions, so that the two have to agree.
-/

namespace RiscvKernel.Fs

open Lib

/-! ## Regions -/

inductive Region
  | superblock
  | inodeMap
  | blockMap
  | inodeTable
  | data
deriving DecidableEq

/-- The first sector of a region. -/
def Region.start (sb : Superblock) : Region → ℕ
  | superblock => sb.startSector
  | inodeMap => sb.startSector + sb.inodeMapOffset
  | blockMap => sb.startSector + sb.blockMapOffset
  | inodeTable => sb.startSector + sb.inodeOffset
  | data => sb.startSector + sb.dataOffset

/-- The first sector behind a region. -/
def Region.stop (sb : Superblock) : Region → ℕ
  | superblock => inodeMap.start sb
  | inodeMap => blockMap.start sb
  | blockMap => inodeTable.start sb
  | inodeTable => data.start sb
  | data => sb.startSector + sb.fsSize

/-- Sector `n` belongs to the region. -/
def Region.Has (r : Region) (sb : Superblock) (n : ℕ) : Prop := r.start sb ≤ n ∧ n < r.stop sb

/-- Every sector of another region is as before. -/
def OnlyIn (r : Region) (d d' : Mem) : Prop :=
  ∀ r' n, r' ≠ r → r'.Has mkfsSb n → ∀ i < sectorSize, d' (sectorSize * n + i) = d (sectorSize * n + i)

/-- The bytes from `lo` on and below `hi` are bytes of the region, or lie behind all regions. -/
def Window (r : Region) (lo hi : ℕ) : Prop :=
  512 * r.start mkfsSb ≤ lo ∧ (r = .data ∨ hi ≤ 512 * r.stop mkfsSb)

theorem OnlyIn.refl (r : Region) (d : Mem) : OnlyIn r d d := fun _ _ _ _ _ _ => rfl

/-- Where the regions of `do_mkfs` begin. -/
theorem Region.start_mkfsSb (r : Region) :
    r.start mkfsSb = match r with
      | .superblock => 1048576
      | .inodeMap => 1048577
      | .blockMap => 1048578
      | .inodeTable => 1048610
      | .data => 1049122 := by
  cases r <;> rfl

theorem Region.stop_mkfsSb (r : Region) :
    r.stop mkfsSb = match r with
      | .superblock => 1048577
      | .inodeMap => 1048578
      | .blockMap => 1048610
      | .inodeTable => 1049122
      | .data => 2097152 := by
  cases r <;> rfl

/-- The regions do not overlap. -/
theorem onlyIn_of_window {r : Region} {lo hi : ℕ} {d d' : Mem} (hw : Window r lo hi)
    (h : ∀ a, a < lo ∨ hi ≤ a → d' a = d a) : OnlyIn r d d' := by
  intro r' n hr hn i hi
  obtain ⟨h1, h2⟩ := hw
  obtain ⟨h3, h4⟩ := hn
  rw [Region.start_mkfsSb] at h1 h3
  rw [Region.stop_mkfsSb] at h2 h4
  simp only [sectorSize] at hi ⊢
  apply h
  cases r <;> cases r' <;>
    simp only [reduceCtorEq, false_or, true_or, ne_eq, not_true_eq_false] at h1 h2 h3 h4 hr <;> omega

theorem OnlyIn.sbOn {r : Region} {d d' : Mem} (h : OnlyIn r d d') (hr : r ≠ .superblock)
    (hd : SbOn d) : SbOn d' := by
  intro i hi
  have := h .superblock fsStartSector hr.symm ⟨by decide, by decide⟩ i (by simp only [sectorSize]; omega)
  exact this.trans (hd i hi)

/-! ## The states -/

/-- The superblock on the disk is that of `do_mkfs`; so is the one in memory if it has been read. -/
structure SbKnown (s : State) : Prop where
  on : SbOn s.disk
  sb : s.sbValid = true → s.sb = mkfsSb

theorem SbOk.known {s : State} (h : SbOk s) : SbKnown s := ⟨h.on, fun _ => h.sb⟩

/-- `if (!sb_valid) { read_sb(&sb); sb_valid = 1; }`. -/
def sbReady (s : State) : State := if s.sbValid then s else { readSb s with sbValid := true }

theorem sbReady_disk (s : State) : (sbReady s).disk = s.disk := by
  unfold sbReady
  split_ifs <;> rfl

theorem SbKnown.ready {s : State} (h : SbKnown s) : SbOk (sbReady s) := by
  refine ⟨?_, ?_, by rw [sbReady_disk]; exact h.on⟩
  · unfold sbReady
    split_ifs with hv
    · exact hv
    · rfl
  · unfold sbReady
    split_ifs with hv
    · exact h.sb hv
    · exact readSb_sb h.on

theorem allocIn_ready (s : State) (f : Superblock → ℕ) (n : ℕ) :
    allocIn s f n = allocIn (sbReady s) f n := by
  by_cases hv : s.sbValid = true
  · unfold sbReady
    rw [if_pos hv]
  · unfold allocIn sbReady
    rw [if_neg hv, if_pos rfl]

/-! ## The two maps -/

/-- The map is an array of `size` bits from which `alloc` takes the first clear one and which `free`
gives back. -/
structure BitArray (map : Mem → ℕ → Bool) (size : ℕ) (r : Region) (alloc : State → ℕ × State)
    (free : State → ℕ → State) (s : State) : Prop where
  least : (∃ k < size, map s.disk k = false) →
    (alloc s).1 < size ∧ map s.disk (alloc s).1 = false ∧
      (∀ k < (alloc s).1, map s.disk k = true) ∧
      ∀ k, map (alloc s).2.disk k = (decide (k = (alloc s).1) || map s.disk k)
  full : (∀ k < size, map s.disk k = true) → (alloc s).1 = neg1 ∧ (alloc s).2.disk = s.disk
  allocOnly : OnlyIn r s.disk (alloc s).2.disk
  freed : ∀ n < size, ∀ k, map (free s n).disk k = (!decide (k = n) && map s.disk k)
  freeOnly : ∀ n < size, OnlyIn r s.disk (free s n).disk
  restored : (alloc s).1 ≠ neg1 → ∀ k, map (free (alloc s).2 (alloc s).1).disk k = map s.disk k

section Bits

variable {f : Superblock → ℕ} {n : ℕ} {map : Mem → ℕ → Bool} {r : Region} {s : State}

theorem onlyIn_setBit {d : Mem} {base size k : ℕ} (hw : Window r base (base + size)) (hk : k < 8 * size) :
    OnlyIn r d (setBit d base k) :=
  onlyIn_of_window hw fun _ _ => setBit_out (by omega)

theorem onlyIn_clearBit {d : Mem} {base size k : ℕ} (hw : Window r base (base + size))
    (hk : k < 8 * size) : OnlyIn r d (clearBit d base k) :=
  onlyIn_of_window hw fun _ _ => clearBit_out (by omega)

/-- The common body of the allocators and of the free functions, on the map at `f sb` of `n`
sectors. -/
theorem bitArray (h : SbKnown s) (hs : f mkfsSb + n < 2 ^ 32) (hn : 4096 * n < neg1)
    (hw : Window r (512 * f mkfsSb) (512 * f mkfsSb + 512 * n)) (hr : r ≠ .superblock)
    (hmap : ∀ d k, map d k = (decide (k < 4096 * n) && bit d (512 * f mkfsSb) k)) :
    BitArray map (4096 * n) r (fun s => allocIn s f n) (fun s k => freeIn s f k) s := by
  have hok := h.ready
  have hd := sbReady_disk s
  have hset : ∀ b < 4096 * n, ∀ d k,
      map (setBit d (512 * f mkfsSb) b) k = (decide (k = b) || map d k) := by
    intro b hb d k
    rw [hmap, hmap, bit_setBit]
    by_cases hk : k = b
    · subst hk
      simp [hb]
    · simp [hk]
  have hclear : ∀ b d k, map (clearBit d (512 * f mkfsSb) b) k = (!decide (k = b) && map d k) := by
    intro b d k
    rw [hmap, hmap, bit_clearBit]
    by_cases hk : k = b
    · subst hk
      simp
    · simp [hk]
  have hfree : ∀ s : State, SbOn s.disk → ∀ k < 4096 * n,
      (freeIn s f k).disk = clearBit s.disk (512 * f mkfsSb) k := by
    intro s hon k hk
    rw [freeIn_eq hon (by omega)]
  have hcase := allocIn_spec hok.valid f (n := n) (by rw [hok.sb]; exact hs)
  rw [← allocIn_ready, hok.sb, hd] at hcase
  have hleast : (allocIn s f n).1 ≠ neg1 → ∀ k < (allocIn s f n).1,
      bit s.disk (512 * f mkfsSb) k = true := by
    intro hne k hk
    rw [allocIn_ready] at hne hk
    have := allocIn_least hok.valid (by rw [hok.sb]; exact hs) hne hk
    rwa [hok.sb, hd] at this
  constructor
  · rintro ⟨k, hk, hclr⟩
    rcases hcase with ⟨b, hb, hb0, e⟩ | ⟨hfull, -⟩
    · rw [e] at hleast ⊢
      refine ⟨hb, by rw [hmap, hb0, Bool.and_false], fun k hk => ?_, hset b hb s.disk⟩
      rw [hmap, hleast (by show b ≠ neg1; omega) k hk, decide_eq_true (by show k < _; omega)]
      rfl
    · rw [hmap, hfull k hk, decide_eq_true hk] at hclr
      cases hclr
  · intro hfull
    rcases hcase with ⟨b, hb, hb0, -⟩ | ⟨-, e⟩
    · have := hfull b hb
      rw [hmap, hb0, Bool.and_false] at this
      cases this
    · rw [e]
      exact ⟨rfl, hd⟩
  · rcases hcase with ⟨b, hb, -, e⟩ | ⟨-, e⟩
    · rw [e]
      exact onlyIn_setBit hw (by omega)
    · rw [e]
      show OnlyIn r s.disk (sbReady s).disk
      rw [hd]
      exact OnlyIn.refl r _
  · intro b hb k
    rw [hfree s h.on b hb]
    exact hclear b s.disk k
  · intro b hb
    rw [hfree s h.on b hb]
    exact onlyIn_clearBit hw (by omega)
  · intro hne k
    rcases hcase with ⟨b, hb, hb0, e⟩ | ⟨-, e⟩
    · rw [e]
      have hon : SbOn (setBit s.disk (512 * f mkfsSb) b) :=
        (onlyIn_setBit hw (by omega)).sbOn hr h.on
      show map (freeIn { sbReady s with disk := setBit s.disk (512 * f mkfsSb) b } f b).disk k = _
      rw [hfree _ hon b hb, hclear, hset b hb]
      by_cases hk : k = b
      · rw [hk, hmap, hb0]
        simp
      · simp [hk]
    · rw [e] at hne
      exact absurd rfl hne

end Bits

/-! ## All tool functions -/

theorem inode_array {s : State} {i j : ℕ} (hi : i < numInodes) (hj : j < numInodes) (v : Inode) :
    getInode (writeInode s j v) i = if i = j then v else getInode s i := by
  rw [getInode_eq _ hi, getInode_eq _ hi, writeInode_eq s hj]
  split_ifs with h
  · rw [h]
    exact inode_putInode_self _ _ hj
  · exact inode_putInode_of_ne _ _ h

theorem writeInode_onlyIn {s : State} {n : ℕ} (hn : n < numInodes) (v : Inode) :
    OnlyIn .inodeTable s.disk (writeInode s n v).disk := by
  simp only [numInodes] at hn
  rw [writeInode_eq s hn]
  have hw : Window .inodeTable itabBase blkBase := ⟨by decide, Or.inr (by decide)⟩
  refine onlyIn_of_window hw ?_
  intro a ha
  exact blit_out (by have := bases; omega)

theorem writeBlock_onlyIn {s : State} {b : ℕ} (hb : b < fsBlockNum) (o : ℕ) :
    OnlyIn .data s.disk (writeBlock s b o).disk := by
  have hb : b < 131072 := hb
  rw [writeBlock_eq s hb]
  have hw : Window .data blkBase (blkBase + 4096 * 131072) := ⟨by decide, Or.inl rfl⟩
  refine onlyIn_of_window hw ?_
  intro a ha
  exact blit_out (by omega)

/-- On every disk with the superblock of `do_mkfs`: the two maps are arrays of bits, the inode table is
an array of inodes, and no function writes a sector of a region other than its own. -/
theorem tools_arrays {s : State} (h : SbKnown s) :
    BitArray imap numInodes .inodeMap allocInode freeInode s ∧
      BitArray bmap fsBlockNum .blockMap allocBlock freeBlock s ∧
      (∀ i j v, i < numInodes → j < numInodes →
        getInode (writeInode s j v) i = if i = j then v else getInode s i) ∧
      (∀ j v, j < numInodes → OnlyIn .inodeTable s.disk (writeInode s j v).disk) ∧
      (∀ b o, b < fsBlockNum → OnlyIn .data s.disk (writeBlock s b o).disk) ∧
      ∀ b o, (readBlock s b o).disk = s.disk := by
  refine ⟨?_, ?_, fun i j v hi hj => inode_array hi hj v, fun j v hj => writeInode_onlyIn hj v,
    fun b o hb => writeBlock_onlyIn hb o, fun b o => rfl⟩
  · exact bitArray (n := inodeMapSectors) h (by decide) (by decide) ⟨by decide, Or.inr (by decide)⟩
      (by decide) fun _ _ => rfl
  · exact bitArray (n := blockMapSectors) h (by decide) (by decide) ⟨by decide, Or.inr (by decide)⟩
      (by decide) fun _ _ => rfl

/-- On the disk whose last free blocks lie beyond its end. -/
theorem tools_arrays_almostFull :
    BitArray bmap fsBlockNum .blockMap allocBlock freeBlock (withMap almostFull) :=
  (tools_arrays (withMap_sbOk almostFull).known).2.1

end RiscvKernel.Fs
