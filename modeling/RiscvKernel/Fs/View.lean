import RiscvKernel.Fs.Tools

/-!
# The disk as maps, inodes and blocks

The observers `imap`, `bmap`, `inode`, `block` and `SbOn` read the five regions of a disk, and the
writers `putBlock`, `putInode`, `setBit` and `clearBit` are what the tool functions do to it. Each
pair of a writer and an observer has one lemma; with them nothing above this module looks at an
address again.

* `writeBlock_eq`, `readBlock_temp`, `getInode_eq`, `writeInode_eq`: the block and inode functions
  for numbers in range.
* `allocBlock_spec`, `allocInode_spec`: an allocation sets one clear bit or fails.
* `freeBlock_eq`, `freeInode_eq`: a release clears one bit, and reads the superblock to `TEMP_BUF`.
-/

namespace RiscvKernel.Fs

open Lib

/-! ## Regions -/

def sbBase : ℕ := 512 * 2 ^ 20
def imapBase : ℕ := 512 * (2 ^ 20 + 1)
def bmapBase : ℕ := 512 * (2 ^ 20 + 2)
def itabBase : ℕ := 512 * (2 ^ 20 + 34)
def blkBase : ℕ := 512 * (2 ^ 20 + 546)

/-- Bit `n` of the inode map. -/
def imap (d : Mem) (n : ℕ) : Bool := decide (n < 4096) && bit d imapBase n

/-- Bit `b` of the block map. -/
def bmap (d : Mem) (b : ℕ) : Bool := decide (b < 131072) && bit d bmapBase b

/-- Entry `n` of the inode table. -/
def inode (d : Mem) (n : ℕ) : Inode :=
  if n < 4096 then Inode.decode d (itabBase + 64 * n) else Inode.zero

/-- The bytes of block `b`. -/
def block (d : Mem) (b : ℕ) : Mem := fun i => if i < 4096 then d (blkBase + 4096 * b + i) else 0#8

/-- Entry `k` of block `b` as an index block. -/
def idx (d : Mem) (b k : ℕ) : ℕ := if k < 1024 then word (block d b) (4 * k) else 0

/-- The superblock of `do_mkfs` is on the disk. -/
def SbOn (d : Mem) : Prop := ∀ i < 80, d (sbBase + i) = mkfsSb.encode i

/-- Replace block `b` by the 4096 bytes of `src` at `o`. -/
def putBlock (d : Mem) (b : ℕ) (src : Mem) (o : ℕ) : Mem := blit d (blkBase + 4096 * b) src o 4096

/-- Replace entry `n` of the inode table. -/
def putInode (d : Mem) (n : ℕ) (x : Inode) : Mem := blit d (itabBase + 64 * n) x.encode 0 64

/-! ## Writers and observers -/

section Observe

variable (d src : Mem) (o b n : ℕ) (x : Inode)

theorem bases : imapBase = sbBase + 512 ∧ bmapBase = sbBase + 1024 ∧ itabBase = sbBase + 17408 ∧
    blkBase = sbBase + 279552 := by
  unfold sbBase imapBase bmapBase itabBase blkBase; norm_num

theorem imap_lt {d : Mem} {n : ℕ} (h : imap d n = true) : n < 4096 := by
  unfold imap at h; simp at h; exact h.1

theorem bmap_lt {d : Mem} {b : ℕ} (h : bmap d b = true) : b < 131072 := by
  unfold bmap at h; simp at h; exact h.1

theorem imap_congr {d d' : Mem} {n : ℕ}
    (h : n < 4096 → d' (imapBase + n / 8) = d (imapBase + n / 8)) : imap d' n = imap d n := by
  unfold imap
  by_cases hn : n < 4096
  · rw [bit_congr (h hn)]
  · simp [hn]

theorem bmap_congr {d d' : Mem} {b : ℕ}
    (h : b < 131072 → d' (bmapBase + b / 8) = d (bmapBase + b / 8)) : bmap d' b = bmap d b := by
  unfold bmap
  by_cases hn : b < 131072
  · rw [bit_congr (h hn)]
  · simp [hn]

theorem inode_congr {d d' : Mem} {n : ℕ}
    (h : n < 4096 → ∀ i < 64, d' (itabBase + 64 * n + i) = d (itabBase + 64 * n + i)) :
    inode d' n = inode d n := by
  unfold inode
  split_ifs with hn
  · exact Inode.decode_congr (h hn)
  · rfl

theorem byte_of_inode {d d' : Mem} {n : ℕ} (h : inode d' n = inode d n) (hn : n < 4096) {i : ℕ}
    (hi : i < 64) : d' (itabBase + 64 * n + i) = d (itabBase + 64 * n + i) := by
  unfold inode at h
  rw [if_pos hn, if_pos hn] at h
  have e := congrArg (fun x => x.encode i) h
  rwa [Inode.encode_decode hi, Inode.encode_decode hi] at e

theorem block_congr {d d' : Mem} {b : ℕ}
    (h : ∀ i < 4096, d' (blkBase + 4096 * b + i) = d (blkBase + 4096 * b + i)) :
    block d' b = block d b := by
  funext i
  unfold block
  split_ifs with hi
  · exact h i hi
  · rfl

@[simp] theorem imap_putBlock : imap (putBlock d b src o) n = imap d n :=
  imap_congr fun _ => blit_out (by have := bases; omega)

@[simp] theorem bmap_putBlock (c : ℕ) : bmap (putBlock d b src o) c = bmap d c :=
  bmap_congr fun _ => blit_out (by have := bases; omega)

@[simp] theorem inode_putBlock : inode (putBlock d b src o) n = inode d n :=
  inode_congr fun _ _ _ => blit_out (by have := bases; omega)

theorem block_putBlock_self {i : ℕ} (hi : i < 4096) :
    block (putBlock d b src o) b i = src (o + i) := by
  unfold block putBlock
  rw [if_pos hi, blit_in hi]

theorem block_putBlock_of_ne {b c : ℕ} (h : c ≠ b) :
    block (putBlock d b src o) c = block d c :=
  block_congr fun _ _ => blit_out (by omega)

theorem SbOn.putBlock {d : Mem} (h : SbOn d) (src : Mem) (o b : ℕ) : SbOn (putBlock d b src o) :=
  fun i hi => (blit_out (by have := bases; omega)).trans (h i hi)

@[simp] theorem imap_putInode : imap (putInode d n x) b = imap d b :=
  imap_congr fun _ => blit_out (by have := bases; omega)

@[simp] theorem bmap_putInode : bmap (putInode d n x) b = bmap d b :=
  bmap_congr fun _ => blit_out (by have := bases; omega)

theorem inode_putInode_self {n : ℕ} (hn : n < 4096) : inode (putInode d n x) n = x := by
  unfold inode
  rw [if_pos hn]
  exact Inode.decode_encode fun i hi => by
    unfold putInode
    rw [blit_in hi, Nat.zero_add]

theorem inode_putInode_of_ne {n m : ℕ} (h : m ≠ n) : inode (putInode d n x) m = inode d m :=
  inode_congr fun _ _ _ => blit_out (by omega)

theorem block_putInode {n : ℕ} (hn : n < 4096) (b : ℕ) : block (putInode d n x) b = block d b :=
  block_congr fun _ _ => blit_out (by have := bases; omega)

theorem SbOn.putInode {d : Mem} (h : SbOn d) (n : ℕ) (x : Inode) : SbOn (putInode d n x) :=
  fun i hi => (blit_out (by have := bases; omega)).trans (h i hi)

theorem bmap_setBit {b : ℕ} (hb : b < 131072) (c : ℕ) :
    bmap (setBit d bmapBase b) c = (decide (c = b) || bmap d c) := by
  unfold bmap
  rw [bit_setBit]
  by_cases h : c = b
  · subst h; simp [hb]
  · simp [h]

theorem imap_setBit {n : ℕ} (hn : n < 4096) (m : ℕ) :
    imap (setBit d imapBase n) m = (decide (m = n) || imap d m) := by
  unfold imap
  rw [bit_setBit]
  by_cases h : m = n
  · subst h; simp [hn]
  · simp [h]

theorem imap_clearBit (n m : ℕ) :
    imap (clearBit d imapBase n) m = (!decide (m = n) && imap d m) := by
  unfold imap
  rw [bit_clearBit]
  by_cases h : m = n
  · subst h; simp
  · simp [h]

/-- A change of one byte of a map. -/
theorem observe_update {d d' : Mem} {a : ℕ} (ha : imapBase ≤ a) (ha' : a < itabBase)
    (h : ∀ i ≠ a, d' i = d i) :
    (∀ n, inode d' n = inode d n) ∧ (∀ b, block d' b = block d b) ∧ (SbOn d → SbOn d') :=
  ⟨fun n => inode_congr fun _ _ _ => h _ (by have := bases; omega),
    fun b => block_congr fun _ _ => h _ (by have := bases; omega),
    fun H i hi => (h _ (by have := bases; omega)).trans (H i hi)⟩

section Bits

variable {b n : ℕ} (hb : b < 131072) (hn : n < 4096)

include hb in
theorem observe_setBmap : (∀ n, inode (setBit d bmapBase b) n = inode d n) ∧
    (∀ c, block (setBit d bmapBase b) c = block d c) ∧ (SbOn d → SbOn (setBit d bmapBase b)) :=
  observe_update (a := bmapBase + b / 8) (by have := bases; omega) (by have := bases; omega)
    fun _ hi => setBit_out hi

include hn in
theorem observe_setImap : (∀ m, inode (setBit d imapBase n) m = inode d m) ∧
    (∀ c, block (setBit d imapBase n) c = block d c) ∧ (SbOn d → SbOn (setBit d imapBase n)) :=
  observe_update (a := imapBase + n / 8) (by omega) (by have := bases; omega)
    fun _ hi => setBit_out hi

include hn in
theorem observe_clearImap : (∀ m, inode (clearBit d imapBase n) m = inode d m) ∧
    (∀ c, block (clearBit d imapBase n) c = block d c) ∧
    (SbOn d → SbOn (clearBit d imapBase n)) :=
  observe_update (a := imapBase + n / 8) (by omega) (by have := bases; omega)
    fun _ hi => clearBit_out hi

include hb in
theorem imap_setBmap (m : ℕ) : imap (setBit d bmapBase b) m = imap d m :=
  imap_congr fun _ => setBit_out (by have := bases; omega)

include hn in
theorem bmap_setImap (c : ℕ) : bmap (setBit d imapBase n) c = bmap d c :=
  bmap_congr fun _ => setBit_out (by have := bases; omega)

include hn in
theorem bmap_clearImap (c : ℕ) : bmap (clearBit d imapBase n) c = bmap d c :=
  bmap_congr fun _ => clearBit_out (by have := bases; omega)

end Bits

end Observe

/-! ## Blocks and inodes -/

/-- The state with another disk and another `TEMP_BUF`. -/
def State.put (s : State) (d t : Mem) : State := { s with disk := d, temp := t }

section Put

variable (s : State) (d t : Mem)

@[simp] theorem State.put_disk : (s.put d t).disk = d := rfl
@[simp] theorem State.put_temp : (s.put d t).temp = t := rfl
@[simp] theorem State.put_stack : (s.put d t).stack = s.stack := rfl
@[simp] theorem State.put_sb : (s.put d t).sb = s.sb := rfl
@[simp] theorem State.put_sbValid : (s.put d t).sbValid = s.sbValid := rfl
@[simp] theorem State.put_fdescArray : (s.put d t).fdescArray = s.fdescArray := rfl
@[simp] theorem State.put_fdescArrayTools : (s.put d t).fdescArrayTools = s.fdescArrayTools := rfl
@[simp] theorem State.put_dirInode : (s.put d t).dirInode = s.dirInode := rfl
@[simp] theorem State.put_allocFailed : (s.put d t).allocFailed = s.allocFailed := rfl
@[simp] theorem State.put_put (d' t' : Mem) : (s.put d t).put d' t' = s.put d' t' := rfl
@[simp] theorem State.put_self : s.put s.disk s.temp = s := rfl
@[simp] theorem State.setTemp_eq : s.setTemp t = s.put s.disk t := rfl
@[simp] theorem State.fail_allocFailed : s.fail.allocFailed = true := rfl

end Put

theorem blockSector_eq {b : ℕ} (hb : b < 131072) : 512 * blockSector b = blkBase + 4096 * b := by
  unfold blockSector blkBase
  simp only [blockBase, inodeTableStart, fsStartSector, superblockSectors, inodeMapSectors,
    blockMapSectors, inodeTableSectors, numInodes, inodeSize, sectorSize, fsBlockNum, fsSize,
    blockSize, sectorsPerBlock]
  rw [u32_of_lt (n := b * _) (by omega), u32_of_lt (by omega)]
  omega

theorem inodeSector_eq {n : ℕ} (hn : n < 4096) :
    512 * inodeSector n + inodeOffset n = itabBase + 64 * n := by
  unfold inodeSector inodeOffset itabBase
  simp only [inodeTableStart, fsStartSector, superblockSectors, inodeMapSectors,
    blockMapSectors, numInodes, inodeSize, sectorSize, fsBlockNum, fsSize, blockSize]
  rw [u32_of_lt (n := n * 64 / 512) (by omega), u32_of_lt (by omega)]
  omega

theorem inodeOffset_le (n : ℕ) : inodeOffset n + 64 ≤ 512 := by
  unfold inodeOffset
  simp only [inodeSize, sectorSize]
  omega

theorem writeBlock_eq (s : State) {b : ℕ} (hb : b < 131072) (o : ℕ) :
    writeBlock s b o = s.put (putBlock s.disk b s.temp o) s.temp := by
  unfold writeBlock putBlock
  rw [← blockSector_eq hb]
  rfl

theorem readBlock_temp (s : State) {b : ℕ} (hb : b < 131072) {o i : ℕ} (hi : i < 4096) :
    (readBlock s b o).temp (o + i) = block s.disk b i := by
  unfold readBlock block
  show blit s.temp o s.disk (512 * blockSector b) 4096 (o + i) = _
  rw [if_pos hi, blit_in hi, blockSector_eq hb]

theorem readBlock_temp_out (s : State) (b : ℕ) {o i : ℕ} (hi : i < o ∨ o + 4096 ≤ i) :
    (readBlock s b o).temp i = s.temp i := blit_out hi

@[simp] theorem readBlock_disk (s : State) (b o : ℕ) : (readBlock s b o).disk = s.disk := rfl

@[simp] theorem readBlock_put (s : State) (b o : ℕ) (d t : Mem) :
    (readBlock s b o).put d t = s.put d t := rfl

theorem readBlock_word (s : State) {b : ℕ} (hb : b < 131072) (o : ℕ) {k : ℕ} (hk : k < 1024) :
    word (readBlock s b o).temp (o + 4 * k) = idx s.disk b k := by
  unfold idx
  rw [if_pos hk]
  exact word_congr fun i hi => by rw [Nat.add_assoc]; exact readBlock_temp s hb (by omega)

theorem getInode_eq (s : State) {n : ℕ} (hn : n < 4096) : getInode s n = inode s.disk n := by
  unfold getInode inode
  rw [if_pos hn, ← inodeSector_eq hn]
  have h : ∀ (m : Mem) (a c : ℕ), Inode.decode (fun i => m (a + i)) c = Inode.decode m (a + c) := by
    intro m a c
    have hw : ∀ k, word (fun i => m (a + i)) (c + k) = word m (a + c + k) := fun k =>
      word_congr fun i _ => by
        show m (a + (c + k + i)) = m (a + c + k + i)
        congr 1; omega
    apply Inode.ext
    · exact hw 0
    · exact hw 4
    · exact hw 8
    · exact hw 12
    · funext i
      show (if i < 10 then _ else 0) = (if i < 10 then _ else 0)
      split_ifs
      · exact hw _
      · rfl
    · exact hw 56
    · exact hw 60
  exact h s.disk (512 * inodeSector n) (inodeOffset n)

theorem writeInode_eq (s : State) {n : ℕ} (hn : n < 4096) (x : Inode) :
    writeInode s n x = s.put (putInode s.disk n x) s.temp := by
  unfold writeInode putInode
  rw [← inodeSector_eq hn]
  simp only [sectorSize, inodeSize]
  rw [blit_blit_blit _ _ _ (inodeOffset_le n)]
  rfl

/-! ## Allocation -/

/-- The superblock in memory and on the disk are those of `do_mkfs`. -/
structure SbOk (s : State) : Prop where
  valid : s.sbValid = true
  sb : s.sb = mkfsSb
  on : SbOn s.disk

theorem SbOk.readBlock {s : State} (h : SbOk s) (b o : ℕ) : SbOk (readBlock s b o) :=
  ⟨h.valid, h.sb, h.on⟩

theorem SbOk.put {s : State} (h : SbOk s) {d : Mem} (hd : SbOn d) (t : Mem) : SbOk (s.put d t) :=
  ⟨h.valid, h.sb, hd⟩

theorem ne_neg1 {b : ℕ} (h : b < 131072) : b ≠ neg1 := by
  show b ≠ 2 ^ 32 - 1
  omega

theorem findClear_some {d : Mem} {a n i j t : ℕ} (hs : a + n < 2 ^ 32)
    (h : findClear d a n = some (i, j, t)) :
    i < n ∧ j < 512 ∧ t < 8 ∧ (d (512 * (a + i) + j)).getLsbD t = false := by
  unfold findClear at h
  obtain ⟨i', -, hi, h3, -⟩ := scan_eq_some.mp h
  obtain ⟨j', -, hj, h4, -⟩ := scan_eq_some.mp h3
  obtain ⟨b', hb, e⟩ := Option.map_eq_some_iff.mp h4
  cases e
  obtain ⟨h1, h2, -⟩ := clearBitIn_some hb
  rw [u32_of_lt (by omega)] at h2
  exact ⟨by omega, by omega, h1, h2⟩

theorem findClear_none {d : Mem} {a n : ℕ} (hs : a + n < 2 ^ 32)
    (h : findClear d a n = none) {i j t : ℕ} (hi : i < n) (hj : j < 512) (ht : t < 8) :
    (d (512 * (a + i) + j)).getLsbD t = true := by
  unfold findClear at h
  have h1 := scan_eq_none.mp h i (by omega) (by omega)
  have h2 := scan_eq_none.mp h1 j (by omega) (by omega)
  have h3 := clearBitIn_none (Option.map_eq_none_iff.mp h2) ht
  rwa [u32_of_lt (by omega)] at h3

/-- Both allocators: with the map at sector `f sb`, either a clear bit was found and set, or there
is no clear bit and the failure is recorded. -/
theorem allocIn_spec {s : State} (hv : s.sbValid = true) (f : Superblock → ℕ) {n : ℕ}
    (hs : f s.sb + n < 2 ^ 32) :
    (∃ k, k < 4096 * n ∧ bit s.disk (512 * f s.sb) k = false ∧
      allocIn s f n = (k, { s with disk := setBit s.disk (512 * f s.sb) k })) ∨
    ((∀ k < 4096 * n, bit s.disk (512 * f s.sb) k = true) ∧
      allocIn s f n = (neg1, s.fail)) := by
  unfold allocIn
  rw [if_pos hv]
  cases h : findClear s.disk (f s.sb) n with
  | some r =>
    obtain ⟨i, j, t⟩ := r
    obtain ⟨h1, h2, h3, h4⟩ := findClear_some hs h
    have e1 : (i * 512 * 8 + j * 8 + t) / 8 = i * 512 + j := by omega
    have e2 : (i * 512 * 8 + j * 8 + t) % 8 = t := by omega
    have ea : 512 * (f s.sb + i) + j = 512 * f s.sb + (i * 512 + j) := by omega
    refine Or.inl ⟨i * 512 * 8 + j * 8 + t, by omega, ?_, ?_⟩
    · unfold bit
      rw [e1, e2, ← ea]
      exact h4
    · simp only [h, sectorSize]
      rw [u32_of_lt (show f s.sb + i < 2 ^ 32 by omega), blit_update_blit _ _ _ h2, ea]
      unfold setBit
      rw [e1, e2]
      have hb : blit s.stack 0 s.disk (512 * (f s.sb + i)) 512 (0 + j) = _ := blit_in h2
      rw [Nat.zero_add, ea] at hb
      rw [hb]
  | none =>
    refine Or.inr ⟨fun k hk => ?_, by simp only [h]⟩
    have := @findClear_none _ _ _ hs h (k / 4096) (k % 4096 / 8) (k % 8) (by omega) (by omega)
      (by omega)
    unfold bit
    rwa [show 512 * (f s.sb + k / 4096) + k % 4096 / 8 = 512 * f s.sb + k / 8 by omega] at this

theorem allocBlock_spec {s : State} (hs : SbOk s) :
    (∃ b, b < 131072 ∧ bmap s.disk b = false ∧
      allocBlock s = (b, s.put (setBit s.disk bmapBase b) s.temp)) ∨
    ((∀ b < 131072, bmap s.disk b = true) ∧
      allocBlock s = (neg1, s.fail)) := by
  have ha : 512 * (s.sb.startSector + s.sb.blockMapOffset) = bmapBase := by rw [hs.sb]; rfl
  rcases allocIn_spec hs.valid (fun sb => sb.startSector + sb.blockMapOffset) (n := 32)
    (by rw [hs.sb]; decide) with ⟨b, h1, h2, h3⟩ | ⟨h1, h2⟩
  · simp only [ha] at h2 h3
    exact Or.inl ⟨b, by omega, by unfold bmap; rw [h2, Bool.and_false], h3⟩
  · refine Or.inr ⟨fun b hb => ?_, h2⟩
    have := h1 b (by omega)
    simp only [ha] at this
    unfold bmap
    rw [this, decide_eq_true hb, Bool.true_and]

theorem allocInode_spec {s : State} (hs : SbOk s) :
    (∃ n, n < 4096 ∧ imap s.disk n = false ∧
      allocInode s = (n, s.put (setBit s.disk imapBase n) s.temp)) ∨
    ((∀ n < 4096, imap s.disk n = true) ∧
      allocInode s = (neg1, s.fail)) := by
  have ha : 512 * (s.sb.startSector + s.sb.inodeMapOffset) = imapBase := by rw [hs.sb]; rfl
  rcases allocIn_spec hs.valid (fun sb => sb.startSector + sb.inodeMapOffset) (n := 1)
    (by rw [hs.sb]; decide) with ⟨b, h1, h2, h3⟩ | ⟨h1, h2⟩
  · simp only [ha] at h2 h3
    exact Or.inl ⟨b, by omega, by unfold imap; rw [h2, Bool.and_false], h3⟩
  · refine Or.inr ⟨fun b hb => ?_, h2⟩
    have := h1 b (by omega)
    simp only [ha] at this
    unfold imap
    rw [this, decide_eq_true hb, Bool.true_and]

/-! ## Release -/

/-- Reading the superblock of `do_mkfs` gives it back. -/
theorem decode_mkfsSb {m : Mem} (h : ∀ i < 80, m i = mkfsSb.encode i) :
    Superblock.decode m = mkfsSb := by
  have hf : ∀ k < 10, le m (8 * k) 8 = mkfsSb.field k := by
    intro k hk
    have hle : le m (8 * k) 8 = mkfsSb.field k % 256 ^ 8 := le_of_bytes fun i hi => by
      rw [h _ (by omega)]
      unfold Superblock.encode
      rw [show (8 * k + i) / 8 = k by omega, show (8 * k + i) % 8 = i by omega]
    rw [hle]
    interval_cases k <;> rfl
  have h0 := hf 0 (by omega)
  have h1 := hf 1 (by omega)
  have h2 := hf 2 (by omega)
  have h3 := hf 3 (by omega)
  have h4 := hf 4 (by omega)
  have h5 := hf 5 (by omega)
  have h6 := hf 6 (by omega)
  have h7 := hf 7 (by omega)
  have h8 := hf 8 (by omega)
  have h9 := hf 9 (by omega)
  unfold Superblock.decode mkfsSb
  simp only [Nat.mul_zero, Nat.reduceMul] at h0 h1 h2 h3 h4 h5 h6 h7 h8 h9
  rw [h0, h1, h2, h3, h4, h5, h6, h7, h8, h9]
  rfl

theorem readSb_sb {s : State} (h : SbOn s.disk) : (readSb s).sb = mkfsSb := by
  refine decode_mkfsSb fun i hi => ?_
  have hb : blit s.temp 0 s.disk (512 * 2 ^ 20) 512 (0 + i) = _ := blit_in (by omega)
  rw [Nat.zero_add] at hb
  exact hb.trans (h i hi)

/-- `TEMP_BUF` after `read_sb`: its first 512 bytes are the superblock's sector. -/
theorem readSb_temp (s : State) (i : ℕ) :
    (readSb s).temp i = if i < 512 then s.disk (sbBase + i) else s.temp i := by
  show blit s.temp 0 s.disk (512 * 2 ^ 20) 512 i = _
  split_ifs with h
  · rw [blit_in_of_le (by omega) (by omega)]; rfl
  · exact blit_out (by omega)

theorem freeIn_eq {s : State} (h : SbOn s.disk) {f : Superblock → ℕ} {n : ℕ}
    (hs : f mkfsSb + n / 4096 < 2 ^ 32) :
    freeIn s f n = { readSb s with disk := clearBit s.disk (512 * f mkfsSb) n } := by
  have hj : n % 4096 / 8 < 512 := by omega
  have ea : 512 * (f mkfsSb + n / 4096) + n % 4096 / 8 = 512 * f mkfsSb + n / 8 := by omega
  have hb : blit s.stack 0 s.disk (512 * (f mkfsSb + n / 4096)) 512 (0 + n % 4096 / 8) = _ :=
    blit_in hj
  rw [Nat.zero_add, ea] at hb
  unfold freeIn
  simp only [sectorSize, Nat.reduceMul, readSb_sb h, u32_of_lt hs]
  rw [blit_update_blit _ _ _ hj, ea, show (readSb s).disk = s.disk from rfl,
    show (readSb s).stack = s.stack from rfl, hb]
  rfl

theorem freeBlock_eq {s : State} (h : SbOn s.disk) {b : ℕ} (hb : b < 2 ^ 32) :
    freeBlock s b = { readSb s with disk := clearBit s.disk bmapBase b } := by
  unfold freeBlock
  rw [freeIn_eq h (by
    show 2 ^ 20 + 2 + b / 4096 < 2 ^ 32
    omega)]
  rfl

theorem freeInode_eq {s : State} (h : SbOn s.disk) {n : ℕ} (hn : n < 4096) :
    freeInode s n = { readSb s with disk := clearBit s.disk imapBase n } := by
  unfold freeInode
  rw [freeIn_eq h (by
    show 2 ^ 20 + 1 + n / 4096 < 2 ^ 32
    omega)]
  rfl

end RiscvKernel.Fs
