import RiscvKernel.Lib.Mem
import RiscvKernel.Lib.CStr

/-!
# The file system's layout and state

The constants and records of `include/os/fs.h`. The disk is one byte memory; sector `n` is the
512 bytes at `512 * n`. From sector `fsStartSector` on it holds the superblock, the inode map, the
block map, the inode table and the data blocks.

Machine words are natural numbers; `u32` reduces one modulo `2 ^ 32` wherever the C arithmetic can
leave the range, and `neg1` is the value `-1` has as a `uint32_t`.
-/

namespace RiscvKernel.Fs

open Lib

/-! ## Constants -/

abbrev fsStartSector : ℕ := 2 ^ 20
abbrev fsSize : ℕ := 512 * 2 ^ 20
abbrev sectorSize : ℕ := 512
abbrev blockSize : ℕ := 4096
abbrev sectorsPerBlock : ℕ := blockSize / sectorSize
abbrev superblockMagic : ℕ := 0xDF4C4459
abbrev superblockSectors : ℕ := 1
abbrev numFdescs : ℕ := 16
abbrev fsBlockNum : ℕ := fsSize / blockSize
abbrev blockMapSectors : ℕ := fsBlockNum / 8 / sectorSize
abbrev numInodes : ℕ := 4096
abbrev inodeMapSectors : ℕ := numInodes / 8 / sectorSize
/-- `sizeof(inode_t)`. -/
abbrev inodeSize : ℕ := 64
/-- `sizeof(dentry_t)`: a name of `maxFnameLen` bytes and an inode number. -/
abbrev dentrySize : ℕ := 20
/-- `sizeof(superblock_t)`. -/
abbrev superblockSize : ℕ := 80
abbrev inodeTableSectors : ℕ := numInodes * inodeSize / sectorSize
abbrev inodeTableStart : ℕ := fsStartSector + superblockSectors + inodeMapSectors + blockMapSectors
abbrev blockBase : ℕ := inodeTableStart + inodeTableSectors
abbrev rootDirBlock : ℕ := 1
abbrev rootInodeNum : ℕ := 0
abbrev maxPathLen : ℕ := 80
abbrev maxFnameLen : ℕ := 16
abbrev directBlockNum : ℕ := 10
abbrev indirectBlockNum : ℕ := 1024
abbrev doubleIndirectBlockNum : ℕ := indirectBlockNum * indirectBlockNum
/-- The entries of a directory block. -/
abbrev dentriesPerBlock : ℕ := blockSize / dentrySize

/-- `file_type_t`. -/
abbrev fdFile : ℕ := 0
abbrev fdDir : ℕ := 1

/-- Modes of `do_open`. -/
abbrev oRdonly : ℕ := 1
abbrev oWronly : ℕ := 2
abbrev oRdwr : ℕ := 3

/-- A number as a `uint32_t`. -/
def u32 (n : ℕ) : ℕ := n % 2 ^ 32

/-- `(uint32_t)-1`. -/
abbrev neg1 : ℕ := 2 ^ 32 - 1

theorem u32_of_lt {n : ℕ} (h : n < 2 ^ 32) : u32 n = n := Nat.mod_eq_of_lt h

theorem u32_lt (n : ℕ) : u32 n < 2 ^ 32 := Nat.mod_lt _ (by norm_num)

/-- The character `/`. -/
abbrev slash : Byte := 47#8

/-- The names `.` and `..`. -/
def dot : CStr := [46#8]
def dotdot : CStr := [46#8, 46#8]

/-! ## Superblock -/

/-- `superblock_t`. -/
structure Superblock where
  magic : ℕ
  fsSize : ℕ
  startSector : ℕ
  blockSize : ℕ
  inodeMapOffset : ℕ
  blockMapOffset : ℕ
  inodeOffset : ℕ
  dataOffset : ℕ
  inodeEntrySize : ℕ
  dentrySize : ℕ
  deriving DecidableEq

/-- The ten 64-bit fields in order. -/
def Superblock.field (b : Superblock) : ℕ → ℕ
  | 0 => b.magic
  | 1 => b.fsSize
  | 2 => b.startSector
  | 3 => b.blockSize
  | 4 => b.inodeMapOffset
  | 5 => b.blockMapOffset
  | 6 => b.inodeOffset
  | 7 => b.dataOffset
  | 8 => b.inodeEntrySize
  | _ => b.dentrySize

/-- The bytes of a superblock. -/
def Superblock.encode (b : Superblock) : Mem := fun i => leByte (b.field (i / 8)) (i % 8)

/-- The superblock in the bytes at address 0. -/
def Superblock.decode (m : Mem) : Superblock where
  magic := le m 0 8
  fsSize := le m 8 8
  startSector := le m 16 8
  blockSize := le m 24 8
  inodeMapOffset := le m 32 8
  blockMapOffset := le m 40 8
  inodeOffset := le m 48 8
  dataOffset := le m 56 8
  inodeEntrySize := le m 64 8
  dentrySize := le m 72 8

/-- The superblock `do_mkfs` writes. -/
def mkfsSb : Superblock where
  magic := superblockMagic
  fsSize := Fs.fsSize / sectorSize
  blockSize := Fs.blockSize
  startSector := fsStartSector
  inodeMapOffset := superblockSectors
  blockMapOffset := superblockSectors + inodeMapSectors
  inodeOffset := superblockSectors + inodeMapSectors + blockMapSectors
  dataOffset := superblockSectors + inodeMapSectors + blockMapSectors + inodeTableSectors
  inodeEntrySize := inodeSize
  dentrySize := Fs.dentrySize

/-! ## Inodes -/

/-- `inode_t`: sixteen 32-bit words. The two proof fields say that every field is one and that
`direct_ptr` has ten entries. -/
@[ext] structure Inode where
  mode : ℕ
  type : ℕ
  size : ℕ
  nlinks : ℕ
  direct : ℕ → ℕ
  indirect : ℕ
  double : ℕ
  direct_of_ge : ∀ i, 10 ≤ i → direct i = 0
  lt : mode < 2 ^ 32 ∧ type < 2 ^ 32 ∧ size < 2 ^ 32 ∧ nlinks < 2 ^ 32 ∧ (∀ i, direct i < 2 ^ 32) ∧
    indirect < 2 ^ 32 ∧ double < 2 ^ 32

namespace Inode

/-- The sixteen words of an inode in order. -/
def word (x : Inode) (k : ℕ) : ℕ :=
  if k = 0 then x.mode else if k = 1 then x.type else if k = 2 then x.size
  else if k = 3 then x.nlinks else if k < 14 then x.direct (k - 4)
  else if k = 14 then x.indirect else x.double

/-- The inode in the 64 bytes at `a`. -/
def decode (m : Mem) (a : ℕ) : Inode where
  mode := Lib.word m a
  type := Lib.word m (a + 4)
  size := Lib.word m (a + 8)
  nlinks := Lib.word m (a + 12)
  direct := fun i => if i < 10 then Lib.word m (a + 4 * (4 + i)) else 0
  indirect := Lib.word m (a + 56)
  double := Lib.word m (a + 60)
  direct_of_ge := fun i h => if_neg (by omega)
  lt := by
    refine ⟨word_lt _ _, word_lt _ _, word_lt _ _, word_lt _ _, fun i => ?_, word_lt _ _, word_lt _ _⟩
    split_ifs
    · exact word_lt _ _
    · norm_num

/-- The 64 bytes of an inode. -/
def encode (x : Inode) : Mem := ofWords x.word

/-- An inode after `memset(&node, 0, sizeof(inode_t))`. -/
def zero : Inode where
  mode := 0
  type := 0
  size := 0
  nlinks := 0
  direct := fun _ => 0
  indirect := 0
  double := 0
  direct_of_ge := fun _ _ => rfl
  lt := by simp

/-- `node.type = v`. -/
def setType (x : Inode) (v : ℕ) : Inode :=
  { x with type := u32 v, lt := by have := x.lt; have := u32_lt v; tauto }

/-- `node.size = v`. -/
def setSize (x : Inode) (v : ℕ) : Inode :=
  { x with size := u32 v, lt := by have := x.lt; have := u32_lt v; tauto }

/-- `node.nlinks = v`. -/
def setNlinks (x : Inode) (v : ℕ) : Inode :=
  { x with nlinks := u32 v, lt := by have := x.lt; have := u32_lt v; tauto }

/-- `node.direct_ptr[l] = v`, for `l` below ten. -/
def setDirect (x : Inode) (l v : ℕ) : Inode :=
  { x with
    direct := fun i => if i = l ∧ l < 10 then u32 v else x.direct i
    direct_of_ge := fun i h => by rw [if_neg (by omega)]; exact x.direct_of_ge i h
    lt := by
      obtain ⟨h1, h2, h3, h4, h5, h6, h7⟩ := x.lt
      refine ⟨h1, h2, h3, h4, fun i => ?_, h6, h7⟩
      split_ifs
      · exact u32_lt v
      · exact h5 i }

/-- `node.indirect_ptr = v`. -/
def setIndirect (x : Inode) (v : ℕ) : Inode :=
  { x with indirect := u32 v, lt := by have := x.lt; have := u32_lt v; tauto }

/-- `node.double_indirect_ptr = v`. -/
def setDouble (x : Inode) (v : ℕ) : Inode :=
  { x with double := u32 v, lt := by have := x.lt; have := u32_lt v; tauto }

theorem word_lt' (x : Inode) (k : ℕ) : x.word k < 2 ^ 32 := by
  obtain ⟨h1, h2, h3, h4, h5, h6, h7⟩ := x.lt
  unfold word
  split_ifs
  exacts [h1, h2, h3, h4, h5 _, h6, h7]

/-- Reading back the bytes of an inode. -/
theorem decode_encode {m : Mem} {a : ℕ} {x : Inode} (h : ∀ i < 64, m (a + i) = x.encode i) :
    decode m a = x := by
  have hw : ∀ k < 16, Lib.word m (a + 4 * k) = x.word k := by
    intro k hk
    have hc : Lib.word m (a + 4 * k) = Lib.word x.encode (4 * k) :=
      word_congr fun i hi => by rw [Nat.add_assoc]; exact h _ (by omega)
    rw [hc, encode, word_ofWords]
    exact Nat.mod_eq_of_lt (x.word_lt' k)
  apply Inode.ext
  · exact hw 0 (by omega)
  · exact hw 1 (by omega)
  · exact hw 2 (by omega)
  · exact hw 3 (by omega)
  · funext i
    show (if i < 10 then Lib.word m (a + 4 * (4 + i)) else 0) = x.direct i
    split_ifs with hi
    · rw [hw (4 + i) (by omega)]
      unfold word
      rw [if_neg (by omega), if_neg (by omega), if_neg (by omega), if_neg (by omega),
        if_pos (by omega), Nat.add_sub_cancel_left]
    · exact (x.direct_of_ge i (by omega)).symm
  · exact hw 14 (by omega)
  · exact hw 15 (by omega)

/-- Every byte of an inode on the disk counts. -/
theorem encode_decode {m : Mem} {a i : ℕ} (hi : i < 64) : (decode m a).encode i = m (a + i) := by
  have hw : ∀ k < 16, (decode m a).word k = Lib.word m (a + 4 * k) := by
    intro k hk
    unfold word
    split_ifs with h0 h1 h2 h3 h4 h5
    · subst h0; rfl
    · subst h1; rfl
    · subst h2; rfl
    · subst h3; rfl
    · show (if k - 4 < 10 then Lib.word m (a + 4 * (4 + (k - 4))) else 0) = _
      rw [if_pos (by omega), show 4 + (k - 4) = k by omega]
    · subst h5; rfl
    · obtain rfl : k = 15 := by omega
      rfl
  show leByte ((decode m a).word (i / 4)) (i % 4) = _
  rw [hw _ (by omega)]
  unfold Lib.word
  rw [leByte_le (by omega), show a + 4 * (i / 4) + i % 4 = a + i by omega]

theorem decode_congr {m m' : Mem} {a : ℕ} (h : ∀ i < 64, m (a + i) = m' (a + i)) :
    decode m a = decode m' a := by
  have hw : ∀ k < 16, Lib.word m (a + 4 * k) = Lib.word m' (a + 4 * k) := fun k hk =>
    word_congr fun i hi => by rw [Nat.add_assoc]; exact h _ (by omega)
  apply Inode.ext
  · exact hw 0 (by omega)
  · exact hw 1 (by omega)
  · exact hw 2 (by omega)
  · exact hw 3 (by omega)
  · funext i
    show (if i < 10 then _ else 0) = (if i < 10 then _ else 0)
    split_ifs with hi
    · exact hw (4 + i) (by omega)
    · rfl
  · exact hw 14 (by omega)
  · exact hw 15 (by omega)

/-- The twelve block pointers: ten direct, the indirect and the double indirect one. -/
def ptr (x : Inode) (i : ℕ) : ℕ :=
  if i < 10 then x.direct i else if i = 10 then x.indirect else if i = 11 then x.double else 0

theorem ptr_direct (x : Inode) {i : ℕ} (h : i < 10) : x.ptr i = x.direct i := if_pos h

theorem ptr_setDirect (x : Inode) {l : ℕ} (hl : l < 10) (v i : ℕ) :
    (x.setDirect l v).ptr i = if i = l then u32 v else x.ptr i := by
  unfold ptr setDirect
  by_cases h : i = l
  · rw [if_pos h, if_pos (by omega)]
    exact if_pos ⟨h, hl⟩
  · rw [if_neg h]
    simp only [h, false_and, if_false]

theorem ptr_setIndirect (x : Inode) (v i : ℕ) :
    (x.setIndirect v).ptr i = if i = 10 then u32 v else x.ptr i := by
  unfold ptr setIndirect
  by_cases h : i = 10
  · simp [h]
  · simp [h]

theorem ptr_setDouble (x : Inode) (v i : ℕ) :
    (x.setDouble v).ptr i = if i = 11 then u32 v else x.ptr i := by
  unfold ptr setDouble
  by_cases h : i = 11
  · simp [h]
  · simp [h]

@[simp] theorem ptr_setSize (x : Inode) (v : ℕ) : (x.setSize v).ptr = x.ptr := rfl
@[simp] theorem ptr_setNlinks (x : Inode) (v : ℕ) : (x.setNlinks v).ptr = x.ptr := rfl
@[simp] theorem type_setSize (x : Inode) (v : ℕ) : (x.setSize v).type = x.type := rfl
@[simp] theorem size_setSize (x : Inode) (v : ℕ) : (x.setSize v).size = u32 v := rfl
@[simp] theorem nlinks_setSize (x : Inode) (v : ℕ) : (x.setSize v).nlinks = x.nlinks := rfl
@[simp] theorem type_setNlinks (x : Inode) (v : ℕ) : (x.setNlinks v).type = x.type := rfl
@[simp] theorem size_setNlinks (x : Inode) (v : ℕ) : (x.setNlinks v).size = x.size := rfl
@[simp] theorem nlinks_setNlinks (x : Inode) (v : ℕ) : (x.setNlinks v).nlinks = u32 v := rfl

/-- The two inodes differ in their block pointers only. -/
structure SameMeta (x y : Inode) : Prop where
  mode : y.mode = x.mode
  type : y.type = x.type
  size : y.size = x.size
  nlinks : y.nlinks = x.nlinks

theorem SameMeta.refl (x : Inode) : SameMeta x x := ⟨rfl, rfl, rfl, rfl⟩

end Inode

/-! ## Descriptors and the state -/

/-- `fdesc_t`. -/
structure Fdesc where
  inodeNum : ℕ
  mode : ℕ
  pos : ℕ
  used : ℕ
  deriving DecidableEq

/-- The state the file-system calls of one process work on.

`fdescArray` is declared `static` in `fs.h`, so `fs.c` and `fs_tools.c` each have their own copy.
`temp` is `TEMP_BUF`, the four scratch pages of the running process; `stack` stands for what
uninitialised local arrays contain. `allocFailed` is a ghost: it records that `alloc_inode` or
`alloc_block` has returned -1, and nothing reads it. -/
structure State where
  disk : Mem
  temp : Mem
  stack : Mem
  sb : Superblock
  sbValid : Bool
  /-- the copy of `fs.c` -/
  fdescArray : ℕ → Fdesc
  /-- the copy of `fs_tools.c` -/
  fdescArrayTools : ℕ → Fdesc
  /-- `current_running->dir_inode` -/
  dirInode : ℕ
  allocFailed : Bool

/-- The state with another `TEMP_BUF`. -/
def State.setTemp (s : State) (t : Mem) : State := { s with temp := t }

/-- Record an allocation failure. -/
def State.fail (s : State) : State := { s with allocFailed := true }

end RiscvKernel.Fs
