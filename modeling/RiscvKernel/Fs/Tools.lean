import RiscvKernel.Lib.Bitmap
import RiscvKernel.Fs.Layout

/-!
# The tool functions of the file system

The functions of `kernel/fs/fs_tools.c`. Each takes the state and returns its result with the new
state. The arrays on the kernel stack (`buffer`, `map_buf`) are filled completely before they are
read, so they are local values; the shared scratch pages `TEMP_BUF` are the field `temp`, with byte
0 at `TEMP_BUF` and byte 4096 at `TEMP_BUF + BLOCK_SIZE`.
-/

namespace RiscvKernel.Fs

open Lib

/-! ## Sectors and the superblock -/

/-- The buffer `bios_sd_read` fills from sector `n`. -/
def sdSector (d : Mem) (n : ℕ) : Mem := fun i => d (sectorSize * n + i)

/-- `read_sb(&sb)`. -/
def readSb (s : State) : State :=
  let temp := blit s.temp 0 s.disk (sectorSize * fsStartSector) (sectorSize * superblockSectors)
  { s with temp := temp, sb := Superblock.decode temp }

/-- `write_sb(&sb)`. -/
def writeSb (s : State) : State :=
  let temp := blit s.temp 0 s.sb.encode 0 superblockSize
  { s with
    temp := temp
    disk := blit s.disk (sectorSize * fsStartSector) temp 0 (sectorSize * superblockSectors) }

/-! ## Blocks and inodes -/

/-- The first sector of a block, in the 32-bit arithmetic of `read_block` and `write_block`. -/
def blockSector (b : ℕ) : ℕ := u32 (blockBase + u32 (b * sectorsPerBlock))

/-- `read_block(b, TEMP_BUF + o)`. -/
def readBlock (s : State) (b o : ℕ) : State :=
  { s with temp := blit s.temp o s.disk (sectorSize * blockSector b) blockSize }

/-- `write_block(b, TEMP_BUF + o)`. -/
def writeBlock (s : State) (b o : ℕ) : State :=
  { s with disk := blit s.disk (sectorSize * blockSector b) s.temp o blockSize }

/-- The sector of the inode table that holds inode `n`. -/
def inodeSector (n : ℕ) : ℕ := u32 (inodeTableStart + u32 (n * inodeSize / sectorSize))

/-- The offset of inode `n` in its sector. -/
def inodeOffset (n : ℕ) : ℕ := n * inodeSize % sectorSize

/-- `get_inode`. -/
def getInode (s : State) (n : ℕ) : Inode :=
  Inode.decode (sdSector s.disk (inodeSector n)) (inodeOffset n)

/-- `write_inode`: read the sector, replace the inode in it, write it back. -/
def writeInode (s : State) (n : ℕ) (node : Inode) : State :=
  let buffer := blit s.stack 0 s.disk (sectorSize * inodeSector n) sectorSize
  let buffer := blit buffer (inodeOffset n) node.encode 0 inodeSize
  { s with disk := blit s.disk (sectorSize * inodeSector n) buffer 0 sectorSize }

/-! ## Allocation -/

/-- The search of `alloc_inode` and `alloc_block`: the sector, byte and bit of the first clear bit
of a map of `n` sectors from sector `start`. -/
def findClear (d : Mem) (start n : ℕ) : Option (ℕ × ℕ × ℕ) :=
  scan (fun i =>
    let mapBuf := sdSector d (u32 (start + i))
    scan (fun j => (clearBitIn (mapBuf j)).map fun bit => (i, j, bit)) 0 sectorSize) 0 n

/-- The common body of `alloc_inode` and `alloc_block`; `start` gives the first sector of the map. -/
def allocIn (s : State) (start : Superblock → ℕ) (n : ℕ) : ℕ × State :=
  let s := if s.sbValid then s else { readSb s with sbValid := true }
  match findClear s.disk (start s.sb) n with
  | some (i, j, bit) =>
    let sec := u32 (start s.sb + i)
    let mapBuf := blit s.stack 0 s.disk (sectorSize * sec) sectorSize
    let mapBuf := Function.update mapBuf j (mapBuf j ||| 1#8 <<< bit)
    (i * sectorSize * 8 + j * 8 + bit,
      { s with disk := blit s.disk (sectorSize * sec) mapBuf 0 sectorSize })
  | none => (neg1, s.fail)

/-- `alloc_inode`. -/
def allocInode (s : State) : ℕ × State :=
  allocIn s (fun sb => sb.startSector + sb.inodeMapOffset) inodeMapSectors

/-- `alloc_block`. -/
def allocBlock (s : State) : ℕ × State :=
  allocIn s (fun sb => sb.startSector + sb.blockMapOffset) blockMapSectors

/-- The common body of `free_inode` and `free_block`: both read the superblock into `TEMP_BUF`
first. -/
def freeIn (s : State) (start : Superblock → ℕ) (num : ℕ) : State :=
  let s := readSb s
  let sectorIdx := num / (sectorSize * 8)
  let byteIdx := num % (sectorSize * 8) / 8
  let bitIdx := num % 8
  let sec := u32 (start s.sb + sectorIdx)
  let mapBuf := blit s.stack 0 s.disk (sectorSize * sec) sectorSize
  let mapBuf := Function.update mapBuf byteIdx (mapBuf byteIdx &&& ~~~(1#8 <<< bitIdx))
  { s with disk := blit s.disk (sectorSize * sec) mapBuf 0 sectorSize }

/-- `free_inode`. -/
def freeInode (s : State) (n : ℕ) : State :=
  freeIn s (fun sb => sb.startSector + sb.inodeMapOffset) n

/-- `free_block`. -/
def freeBlock (s : State) (b : ℕ) : State :=
  freeIn s (fun sb => sb.startSector + sb.blockMapOffset) b

/-! ## From logical to physical blocks -/

/-- The last index step: read index block `b` to `TEMP_BUF`, fill the empty entry `k` when `alloc`
is set, and return the entry. -/
def indexEntry (s : State) (b k : ℕ) (alloc : Bool) : ℕ × State :=
  let s := readBlock s b 0
  if word s.temp (4 * k) = 0 ∧ alloc then
    let (new, s) := allocBlock s
    let s := s.setTemp (putWord s.temp (4 * k) new)
    if word s.temp (4 * k) = neg1 then (neg1, s)
    else (word s.temp (4 * k), writeBlock s b 0)
  else (word s.temp (4 * k), s)

/-- A new index block: allocate it and write zeros to it through `TEMP_BUF + o`. On failure nothing
is written. -/
def allocIndexBlock (s : State) (o : ℕ) : ℕ × State :=
  let (new, s) := allocBlock s
  if new = neg1 then (neg1, s)
  else (new, writeBlock (s.setTemp (fill s.temp o 0#8 blockSize)) new o)

/-- The double indirect case of `get_physical_block_id`, once the first-level index block `b` is
there. -/
def doubleEntry (s : State) (b first second : ℕ) (alloc : Bool) : ℕ × State :=
  let s := readBlock s b 0
  if word s.temp (4 * first) = 0 then
    if alloc then
      let (new, s) := allocIndexBlock s blockSize
      if new = neg1 then (neg1, s)
      else
        let s := s.setTemp (putWord s.temp (4 * first) new)
        let s := writeBlock s b 0
        indexEntry s (word s.temp (4 * first)) second alloc
    else (0, s)
  else indexEntry s (word s.temp (4 * first)) second alloc

/-- `get_physical_block_id`: the block number, the changed inode and the new state. -/
def getPhysicalBlockId (s : State) (node : Inode) (inodeNum logicalId : ℕ) (alloc : Bool) :
    ℕ × Inode × State :=
  if logicalId < directBlockNum then
    if node.direct logicalId = 0 ∧ alloc then
      let (new, s) := allocBlock s
      let node := node.setDirect logicalId new
      if node.direct logicalId = neg1 then (neg1, node, s)
      else (node.direct logicalId, node, writeInode s inodeNum node)
    else (node.direct logicalId, node, s)
  else
    let logicalId := logicalId - directBlockNum
    if logicalId < indirectBlockNum then
      if node.indirect = 0 then
        if alloc then
          let (new, s) := allocIndexBlock s 0
          let node := node.setIndirect new
          if node.indirect = neg1 then (neg1, node, s)
          else
            let s := writeInode s inodeNum node
            let (b, s) := indexEntry s node.indirect logicalId alloc
            (b, node, s)
        else (0, node, s)
      else
        let (b, s) := indexEntry s node.indirect logicalId alloc
        (b, node, s)
    else
      let logicalId := logicalId - indirectBlockNum
      if logicalId < doubleIndirectBlockNum then
        let first := logicalId / indirectBlockNum
        let second := logicalId % indirectBlockNum
        if node.double = 0 then
          if alloc then
            let (new, s) := allocIndexBlock s 0
            let node := node.setDouble new
            if node.double = neg1 then (neg1, node, s)
            else
              let s := writeInode s inodeNum node
              let (b, s) := doubleEntry s node.double first second alloc
              (b, node, s)
          else (0, node, s)
        else
          let (b, s) := doubleEntry s node.double first second alloc
          (b, node, s)
      else (neg1, node, s)

/-! ## Directories -/

/-- The number of blocks of a directory: `(size + BLOCK_SIZE - 1) / BLOCK_SIZE` in 32 bits. -/
def numBlocks (node : Inode) : ℕ := u32 (node.size + blockSize - 1) / blockSize

/-- The first entry of a directory block that satisfies `p`; `p` gets the entry's address. -/
def findDentry (p : ℕ → Bool) : Option ℕ :=
  scan (fun j => if p (dentrySize * j) then some j else none) 0 dentriesPerBlock

/-- The entry at `a` is free. -/
def isFree (temp : Mem) (a : ℕ) : Bool := temp a = 0#8

/-- The entry at `a` is in use and its name is `name`. -/
def hasName (temp : Mem) (name : CStr) (a : ℕ) : Bool := temp a ≠ 0#8 ∧ strcmp temp a name = 0

/-- The search common to `append_dentry`, `remove_dentry` and `find_inode_by_name`: visit the
blocks `i`, …, `i + n - 1` of the directory and stop at the first entry that satisfies `p`. The
result gives its block and index; its block is then in `temp`. -/
def searchDentry (p : Mem → ℕ → Bool) (inodeNum : ℕ) :
    ℕ → ℕ → Inode → State → Option (ℕ × ℕ) × Inode × State
  | _, 0, node, s => (none, node, s)
  | i, n + 1, node, s =>
    let (pBlock, node, s) := getPhysicalBlockId s node inodeNum i false
    if pBlock = neg1 ∨ pBlock = 0 then searchDentry p inodeNum (i + 1) n node s
    else
      let s := readBlock s pBlock 0
      match findDentry (p s.temp) with
      | some j => (some (pBlock, j), node, s)
      | none => searchDentry p inodeNum (i + 1) n node s

/-- A `dentry_t` on the stack after `strcpy` of the name and the assignment of the number. -/
def mkDentry (stack : Mem) (name : CStr) (inodeNum : ℕ) : Mem :=
  putWord (strcpy stack 0 name) maxFnameLen inodeNum

/-- `append_dentry`: the changed directory inode and the new state. -/
def appendDentry (s : State) (node : Inode) (inodeNum : ℕ) (dentry : Mem) : Inode × State :=
  let num := numBlocks node
  match searchDentry isFree inodeNum 0 num node s with
  | (some (pBlock, j), node, s) =>
    let s := s.setTemp (blit s.temp (dentrySize * j) dentry 0 dentrySize)
    (node, writeBlock s pBlock 0)
  | (none, node, s) =>
    let (new, node, s) := getPhysicalBlockId s node inodeNum num true
    if new = neg1 ∨ new = 0 then (node, s)
    else
      let s := s.setTemp (blit (fill s.temp 0 0#8 blockSize) 0 dentry 0 dentrySize)
      (node.setSize (node.size + blockSize), writeBlock s new 0)

/-- `remove_dentry`: the directory inode and the new state. -/
def removeDentry (s : State) (node : Inode) (inodeNum : ℕ) (name : CStr) : Inode × State :=
  match searchDentry (fun t => hasName t name) inodeNum 0 (numBlocks node) node s with
  | (some (pBlock, j), node, s) =>
    let s := s.setTemp (Function.update s.temp (dentrySize * j) 0#8)
    (node, writeBlock s pBlock 0)
  | (none, node, s) => (node, s)

/-- `find_inode_by_name`. -/
def findInodeByName (s : State) (dirInodeNum : ℕ) (name : CStr) : ℕ × State :=
  let node := getInode s dirInodeNum
  if node.type ≠ fdDir then (neg1, s)
  else
    match searchDentry (fun t => hasName t name) dirInodeNum 0 (numBlocks node) node s with
    | (some (_, j), _, s) => (word s.temp (dentrySize * j + maxFnameLen), s)
    | (none, _, s) => (neg1, s)

/-- The component loop of `find_inode_by_path`; every round consumes at least one byte of `name`,
so `n` rounds suffice for a string of at most `n` bytes. -/
def walkPath : ℕ → State → ℕ → CStr → ℕ × State
  | 0, s, curr, _ => (curr, s)
  | n + 1, s, curr, name =>
    if name = [] then (curr, s)
    else
      match strchr slash name with
      | some k =>
        let (curr, s) := findInodeByName s curr (name.take k)
        if curr = neg1 then (neg1, s) else walkPath n s curr (name.drop (k + 1))
      | none => findInodeByName s curr name

/-- `find_inode_by_path`. -/
def findInodeByPath (s : State) (path : CStr) : ℕ × State :=
  if path.head? = some slash then walkPath path.length s rootInodeNum path.tail
  else walkPath path.length s s.dirInode path

/-- `alloc_fd`; the table it reads is the copy of `fs_tools.c`. -/
def allocFd (s : State) : ℤ :=
  match scan (fun fd => if (s.fdescArrayTools fd).used = 0 then some fd else none) 0 numFdescs with
  | some fd => fd
  | none => -1

end RiscvKernel.Fs
