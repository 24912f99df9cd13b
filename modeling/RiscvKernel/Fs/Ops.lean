import RiscvKernel.Fs.Tools

/-!
# The file-system calls

The functions of `kernel/fs/fs.c`. Paths are the caller's NUL-terminated strings; the `NULL` checks
and the messages on the console are left out. An `int` result is an integer; `do_touch`, whose
result `do_open` assigns to a `uint32_t`, gives the 32-bit pattern, with `neg1` for -1.
-/

namespace RiscvKernel.Fs

open Lib

/-- A `uint32_t` converted to `int`. -/
def asInt (n : ℕ) : ℤ := if n < 2 ^ 31 then n else n - 2 ^ 32

/-- An `int` converted to `uint32_t`. -/
def ofInt (x : ℤ) : ℕ := (x % 2 ^ 32).toNat

/-! ## Making a file system -/

/-- The root directory's inode, built in `TEMP_BUF`. -/
def mkfsInode (temp : Mem) : Mem :=
  let temp := fill temp 0 0#8 sectorSize
  let temp := putWord temp 4 fdDir
  let temp := putWord temp 8 blockSize
  let temp := putWord temp 12 2
  putWord temp 16 rootDirBlock

/-- Fill in the entries `.` and `..` of the directory block in `TEMP_BUF`. -/
def putDots (temp : Mem) (self parent : ℕ) : Mem :=
  let temp := putWord (strcpy temp 0 dot) maxFnameLen self
  putWord (strcpy temp dentrySize dotdot) (dentrySize + maxFnameLen) parent

/-- `bios_sd_write(TEMP_BUF, 1, n)`. -/
def writeSector (s : State) (n : ℕ) : State :=
  { s with disk := blit s.disk (sectorSize * u32 n) s.temp 0 sectorSize }

/-- `do_mkfs`. -/
def doMkfs (s : State) : ℤ × State :=
  let s := readSb s
  if s.sb.magic = superblockMagic then (-1, { s with sbValid := true })
  else
    let s := { s with sb := mkfsSb }
    let s := { writeSb s with sbValid := true }
    let s := s.setTemp (fill s.temp 0 0#8 sectorSize)
    let s := loop (fun i s => writeSector s (s.sb.startSector + s.sb.inodeMapOffset + i)) 0
      (inodeMapSectors + blockMapSectors) s
    let s := s.setTemp (mkfsInode s.temp)
    let s := writeInode s rootInodeNum (Inode.decode s.temp 0)
    let s := s.setTemp (fill s.temp 0 0#8 blockSize)
    let s := writeBlock s 0 0
    let s := s.setTemp (putDots s.temp rootInodeNum rootInodeNum)
    let s := writeBlock s rootDirBlock 0
    let s := s.setTemp (fill s.temp 0 0#8 sectorSize)
    let s := s.setTemp (Function.update s.temp 0 1#8)
    let s := writeSector s (s.sb.startSector + s.sb.inodeMapOffset)
    let s := s.setTemp (Function.update s.temp 0 3#8)
    let s := writeSector s (s.sb.startSector + s.sb.blockMapOffset)
    (0, s)

/-! ## Directories and names -/

/-- `do_cd`. -/
def doCd (s : State) (path : CStr) : ℤ × State :=
  let (target, s) := findInodeByPath s path
  if target = neg1 then (-1, s)
  else if (getInode s target).type ≠ fdDir then (1, s)
  else (0, { s with dirInode := target })

/-- The path split of `do_mkdir`, `do_rmdir`, `do_touch`, `do_ln` and `do_rm`: the parent directory
and the last component. -/
def splitParent (s : State) (path : CStr) : ℕ × CStr × State :=
  match strrchr slash path with
  | none => (s.dirInode, path, s)
  | some k =>
    let (parent, s) := findInodeByPath s (path.take k)
    (parent, path.drop (k + 1), s)

/-- The inode `do_mkdir` gives a new directory. -/
def newDirInode (block : ℕ) : Inode :=
  (((Inode.zero.setType fdDir).setSize blockSize).setNlinks 2).setDirect 0 block

/-- The inode `do_touch` gives a new file. -/
def newFileInode : Inode := ((Inode.zero.setType fdFile).setSize 0).setNlinks 1

/-- `do_mkdir`. -/
def doMkdir (s : State) (path : CStr) : ℤ × State :=
  let (parent, name, s) := splitParent s path
  if slash ∈ path ∧ parent = neg1 then (-1, s)
  else
    let (found, s) := findInodeByName s parent name
    if found ≠ neg1 then (-1, s)
    else
      let (newInode, s) := allocInode s
      let (newBlock, s) := allocBlock s
      let s := writeInode s newInode (newDirInode newBlock)
      let s := s.setTemp (putDots (fill s.temp 0 0#8 blockSize) newInode parent)
      let s := writeBlock s newBlock 0
      let dentry := mkDentry s.stack name newInode
      let (node, s) := appendDentry s (getInode s parent) parent dentry
      (0, writeInode s parent (node.setNlinks (node.nlinks + 1)))

/-- The number of entries in use in the directory block in `temp`. -/
def countBlock (temp : Mem) : ℕ :=
  loop (fun j c => if temp (dentrySize * j) ≠ 0#8 then c + 1 else c) 0 dentriesPerBlock 0

/-- The emptiness check of `do_rmdir`: count the entries of the direct blocks from `i` on. -/
def countDentries (node : Inode) : ℕ → ℕ → ℕ → State → ℕ × State
  | _, 0, count, s => (count, s)
  | i, n + 1, count, s =>
    if node.direct i = 0 ∧ i ≠ 0 then (count, s)
    else
      let s := readBlock s (node.direct i) 0
      countDentries node (i + 1) n (count + countBlock s.temp) s

/-- `do_rmdir`. -/
def doRmdir (s : State) (path : CStr) : ℤ × State :=
  let (parent, name, s) := splitParent s path
  let (target, s) := findInodeByName s parent name
  if target = neg1 then (-1, s)
  else if target = rootInodeNum then (-1, s)
  else
    let targetNode := getInode s target
    if targetNode.type ≠ fdDir then (-1, s)
    else
      let (count, s) := countDentries targetNode 0 directBlockNum 0 s
      if count > 2 then (-1, s)
      else
        let (node, s) := removeDentry s (getInode s parent) parent name
        let s := loop (fun i s =>
          if targetNode.direct i ≠ 0 ∨ i = 0 then freeBlock s (targetNode.direct i) else s)
          0 directBlockNum s
        let s := freeInode s target
        (0, writeInode s parent (node.setNlinks (u32 (node.nlinks + neg1))))

/-- `do_touch`. -/
def doTouch (s : State) (path : CStr) : ℕ × State :=
  let (parent, name, s) := splitParent s path
  if slash ∈ path ∧ parent = neg1 then (neg1, s)
  else
    let (found, s) := findInodeByName s parent name
    if found ≠ neg1 then (neg1, s)
    else
      let (newInode, s) := allocInode s
      let s := writeInode s newInode newFileInode
      let dentry := mkDentry s.stack name newInode
      let (node, s) := appendDentry s (getInode s parent) parent dentry
      (newInode, writeInode s parent node)

/-- `do_ln`. -/
def doLn (s : State) (srcPath dstPath : CStr) : ℤ × State :=
  let (src, s) := findInodeByPath s srcPath
  if src = neg1 then (-1, s)
  else
    let srcNode := getInode s src
    if srcNode.type = fdDir then (-1, s)
    else
      let (parent, name, s) := splitParent s dstPath
      if parent = neg1 then (-1, s)
      else
        let (found, s) := findInodeByName s parent name
        if found ≠ neg1 then (-1, s)
        else
          let dentry := mkDentry s.stack name src
          let (node, s) := appendDentry s (getInode s parent) parent dentry
          let s := writeInode s parent node
          (0, writeInode s src (srcNode.setNlinks (srcNode.nlinks + 1)))

/-- The loop of `do_rm` over the single indirect block: the entries are read from `TEMP_BUF`, which
`free_block` overwrites. -/
def freeEntries (s : State) (o : ℕ) : State :=
  loop (fun i s =>
    if word s.temp (o + 4 * i) ≠ 0 then freeBlock s (word s.temp (o + 4 * i)) else s)
    0 indirectBlockNum s

/-- The direct pointers and the single indirect block in `do_rm`. -/
def freeSingle (s : State) (node : Inode) : State :=
  let s := loop (fun i s => if node.direct i ≠ 0 then freeBlock s (node.direct i) else s)
    0 directBlockNum s
  if node.indirect ≠ 0 then
    let s := readBlock (s.setTemp (fill s.temp 0 0#8 blockSize)) node.indirect 0
    freeBlock (freeEntries s 0) node.indirect
  else s

/-- The loop of `do_rm` over the first-level index block in `TEMP_BUF`; the second-level blocks are
read to `TEMP_BUF + BLOCK_SIZE`. -/
def freeSecondLevel (s : State) : State :=
  loop (fun i s =>
    if word s.temp (4 * i) ≠ 0 then
      let s := readBlock s (word s.temp (4 * i)) blockSize
      let s := freeEntries s blockSize
      freeBlock s (word s.temp (4 * i))
    else s) 0 indirectBlockNum s

/-- The removal of all the blocks of a file in `do_rm`. -/
def freeBlocks (s : State) (node : Inode) : State :=
  let s := freeSingle s node
  if node.double ≠ 0 then
    let s := readBlock s node.double 0
    freeBlock (freeSecondLevel s) node.double
  else s

/-- `do_rm`. -/
def doRm (s : State) (path : CStr) : ℤ × State :=
  let (parent, name, s) := splitParent s path
  if parent = neg1 then (-1, s)
  else
    let (target, s) := findInodeByName s parent name
    if target = neg1 then (-1, s)
    else
      let targetNode := getInode s target
      if targetNode.type = fdDir then (-1, s)
      else
        let (_, s) := removeDentry s (getInode s parent) parent name
        let targetNode := targetNode.setNlinks (u32 (targetNode.nlinks + neg1))
        if targetNode.nlinks = 0 then (0, freeInode (freeBlocks s targetNode) target)
        else (0, writeInode s target targetNode)

/-! ## Files -/

/-- The end of `do_open`: check the type and install a descriptor. -/
def openInode (s : State) (n mode : ℕ) : ℤ × State :=
  if (getInode s n).type ≠ fdFile then (-1, s)
  else
    let fd := allocFd s
    if fd = -1 then (-1, s)
    else
      (fd, { s with fdescArray := Function.update s.fdescArray fd.toNat ⟨n, mode, 0, 1⟩ })

/-- `do_open`. The test `inode_num <= 0` on the unsigned result of `do_touch` is `inode_num == 0`. -/
def doOpen (s : State) (path : CStr) (mode : ℕ) : ℤ × State :=
  let (n, s) := findInodeByPath s path
  if n = neg1 then
    if mode = oRdwr ∨ mode = oWronly then
      let (n, s) := doTouch s path
      if n = 0 then (-1, s) else openInode s n mode
    else (-1, s)
  else openInode s n mode

/-- `fd` is the number of a descriptor in use. -/
def State.isOpen (s : State) (fd : ℤ) : Prop :=
  0 ≤ fd ∧ fd < numFdescs ∧ (s.fdescArray fd.toNat).used ≠ 0

instance (s : State) (fd : ℤ) : Decidable (s.isOpen fd) := by unfold State.isOpen; infer_instance

/-- `fdesc_array[fd].pos = pos`. -/
def State.setPos (s : State) (fd : ℤ) (pos : ℕ) : State :=
  { s with
    fdescArray := Function.update s.fdescArray fd.toNat { s.fdescArray fd.toNat with pos := pos } }

/-- The number of bytes one round of the copy loops moves: up to the end of the block. -/
def chunk (pos remain : ℕ) : ℕ :=
  if remain < blockSize - pos % blockSize then remain else blockSize - pos % blockSize

/-- The loop of `do_read` with `len` bytes to deliver: the number of bytes delivered, the position,
the caller's buffer and the state. Every round delivers a byte at least. -/
def readLoop (inodeNum len : ℕ) : ℕ → ℕ → ℕ → Inode → Mem → State → ℕ × ℕ × Mem × State
  | 0, total, pos, _, buff, s => (total, pos, buff, s)
  | n + 1, total, pos, node, buff, s =>
    if total < len then
      let (pBlock, node, s) := getPhysicalBlockId s node inodeNum (pos / blockSize) false
      if pBlock = neg1 then (total, pos, buff, s)
      else
        let s := readBlock s pBlock 0
        let k := chunk pos (len - total)
        readLoop inodeNum len n (total + k) (u32 (pos + k)) node
          (blit buff total s.temp (pos % blockSize) k) s
    else (total, pos, buff, s)

/-- `do_read`: the result, the caller's buffer and the new state. -/
def doRead (s : State) (fd : ℤ) (buff : Mem) (length : ℤ) : ℤ × Mem × State :=
  if ¬ s.isOpen fd then (-1, buff, s)
  else
    let fdesc := s.fdescArray fd.toNat
    if fdesc.mode = oWronly then (-1, buff, s)
    else
      let node := getInode s fdesc.inodeNum
      if fdesc.pos ≥ node.size then (0, buff, s)
      else
        let remain := asInt (node.size - fdesc.pos)
        let len := (if length < remain then length else remain).toNat
        let (total, pos, buff, s) := readLoop fdesc.inodeNum len len 0 fdesc.pos node buff s
        (total, buff, s.setPos fd pos)

/-- The loop of `do_write` with `len` bytes to store: the number of bytes stored, the position, the
inode and the state. -/
def writeLoop (inodeNum len : ℕ) (buff : Mem) :
    ℕ → ℕ → ℕ → Inode → State → ℕ × ℕ × Inode × State
  | 0, total, pos, node, s => (total, pos, node, s)
  | n + 1, total, pos, node, s =>
    if total < len then
      let (pBlock, node, s) := getPhysicalBlockId s node inodeNum (pos / blockSize) true
      if pBlock = neg1 then (total, pos, node, s)
      else
        let s := readBlock s pBlock 0
        let k := chunk pos (len - total)
        let s := s.setTemp (blit s.temp (pos % blockSize) buff total k)
        let s := writeBlock s pBlock 0
        let pos := u32 (pos + k)
        let node := if pos > node.size then node.setSize pos else node
        writeLoop inodeNum len buff n (total + k) pos node s
    else (total, pos, node, s)

/-- `do_write`. -/
def doWrite (s : State) (fd : ℤ) (buff : Mem) (length : ℤ) : ℤ × State :=
  if ¬ s.isOpen fd then (-1, s)
  else
    let fdesc := s.fdescArray fd.toNat
    if fdesc.mode = oRdonly then (-1, s)
    else
      let (total, pos, node, s) :=
        writeLoop fdesc.inodeNum length.toNat buff length.toNat 0 fdesc.pos
          (getInode s fdesc.inodeNum) s
      (total, writeInode (s.setPos fd pos) fdesc.inodeNum node)

/-- `do_close`. -/
def doClose (s : State) (fd : ℤ) : ℤ × State :=
  if ¬ s.isOpen fd then (-1, s)
  else
    (0, { s with
      fdescArray := Function.update s.fdescArray fd.toNat
        { s.fdescArray fd.toNat with used := 0, pos := 0 } })

/-- `do_lseek`; `whence` is `SEEK_SET`, `SEEK_CUR` or `SEEK_END`. -/
def doLseek (s : State) (fd : ℤ) (offset whence : ℤ) : ℤ × State :=
  if ¬ s.isOpen fd then (-1, s)
  else
    let fdesc := s.fdescArray fd.toNat
    let node := getInode s fdesc.inodeNum
    if whence = 0 then (asInt (ofInt offset), s.setPos fd (ofInt offset))
    else if whence = 1 then
      (asInt (ofInt (fdesc.pos + offset)), s.setPos fd (ofInt (fdesc.pos + offset)))
    else if whence = 2 then
      (asInt (ofInt (node.size + offset)), s.setPos fd (ofInt (node.size + offset)))
    else (-1, s)

/-- `init_fs`, as far as the state goes. -/
def initFs (s : State) : State :=
  let s := readSb s
  let s := if s.sb.magic = superblockMagic then { s with sbValid := true } else (doMkfs s).2
  { s with fdescArray := fun i =>
    if i < numFdescs then { s.fdescArray i with pos := 0, used := 0 } else s.fdescArray i }

end RiscvKernel.Fs
