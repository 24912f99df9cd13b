import RiscvKernel.Lib.Mem
import RiscvKernel.Fs.Layout

/-!
# The disk image

`tools/createimage.c` writes the bootblock, the kernel and the applications one after the other,
then the task records, one sector for the batch sequence, and last, over the end of the first
sector, the header fields that the bootblock, `init_task_info` and `init_swap` read back. The tool
and the kernel keep their own copies of the offsets; both are here under their own names.

The tool's `int` positions are exact numbers here: an image of two gigabytes would overflow them.
-/

namespace RiscvKernel.Boot

open Lib Fs

/-! ## The input files -/

/-- A program header of an input file, with the bytes of the file from `p_offset` on. -/
structure Phdr where
  /-- `p_type == PT_LOAD` -/
  load : Bool
  vaddr : BitVec 64
  memsz : BitVec 64
  filesz : BitVec 64
  data : Mem

/-- An input file: its name (without the final NUL) and its program headers. -/
structure Elf where
  name : List Byte
  phdrs : List Phdr

/-- `MAX_NAME_LEN` -/
abbrev maxNameLen : ℕ := 15

/-- `TASK_MAXNUM` -/
abbrev taskMaxnum : ℕ := 32

/-- `task_info_t` -/
structure TaskInfo where
  name : Vector Byte (maxNameLen + 1)
  imageOffset : BitVec 64
  vaddr : BitVec 64
  memsz : BitVec 64
  filesz : BitVec 64
  deriving DecidableEq

/-- `sizeof(task_info_t)` -/
abbrev taskInfoSize : ℕ := 48

/-- `strncpy(d, s, n)` -/
def strncpy (d : Vector Byte (maxNameLen + 1)) (s : List Byte) (n : ℕ) :
    Vector Byte (maxNameLen + 1) :=
  Vector.ofFn fun i => if i.val < n then s.getD i 0 else d[i]

/-- The file name `"bootblock"`. -/
def bootblockName : List Byte := [98, 111, 111, 116, 98, 108, 111, 99, 107]

/-- The file name `"main"`. -/
def mainName : List Byte := [109, 97, 105, 110]

/-! ## Writing the programs -/

/-- The variables of `create_image`: the image so far, where the next program byte goes, the
kernel's bytes and the task records. -/
structure Build where
  img : Mem
  phyaddr : ℕ
  nbytesKernel : ℕ
  taskinfo : ℕ → TaskInfo

/-- `create_image` at its start: an empty image and the zeroed records. -/
def Build.empty : Build :=
  ⟨fun _ => 0, 0, 0, fun _ => ⟨Vector.replicate _ 0, 0, 0, 0, 0⟩⟩

/-- `write_segment` -/
def writeSegment (b : Build) (ph : Phdr) : Build :=
  if ph.memsz ≠ 0 ∧ ph.load then
    { b with
      img := blit b.img b.phyaddr ph.data 0 ph.filesz.toNat
      phyaddr := b.phyaddr + ph.filesz.toNat }
  else b

/-- `write_padding` -/
def writePadding (b : Build) (phyaddr : ℕ) : Build :=
  { b with
    img := fill b.img b.phyaddr 0 (phyaddr - b.phyaddr)
    phyaddr := max b.phyaddr phyaddr }

/-- Change the record of file `fidx`; the bootblock and the kernel have none. -/
def setRecord (fidx : ℕ) (f : TaskInfo → TaskInfo) (b : Build) : Build :=
  if 2 ≤ fidx then
    { b with taskinfo := Function.update b.taskinfo (fidx - 2) (f (b.taskinfo (fidx - 2))) }
  else b

/-- One program header of file `fidx`. -/
def addPhdr (fidx : ℕ) (name : List Byte) (b : Build) (ph : Phdr) : Build :=
  if ph.load then
    let b := setRecord fidx (fun t =>
      { t with
        name := strncpy t.name name (maxNameLen + 1)
        vaddr := ph.vaddr, memsz := ph.memsz, filesz := ph.filesz }) b
    let b := writeSegment b ph
    if name = mainName then
      { b with nbytesKernel := b.nbytesKernel + ph.filesz.toNat % 2 ^ 32 }
    else b
  else b

/-- File `fidx`. -/
def addFile (fidx : ℕ) (b : Build) (f : Elf) : Build :=
  let start := b.phyaddr
  let b := f.phdrs.foldl (addPhdr fidx f.name) b
  let b := setRecord fidx (fun t =>
    { t with name := strncpy t.name f.name 15, imageOffset := BitVec.ofNat 64 start }) b
  if f.name = bootblockName then writePadding b sectorSize else b

/-- The files from index `fidx` on. -/
def addFiles : ℕ → Build → List Elf → Build
  | _, b, [] => b
  | fidx, b, f :: fs => addFiles (fidx + 1) (addFile fidx b f) fs

/-- The records after the last application have empty names. -/
def blankRest (tasknum : ℕ) (taskinfo : ℕ → TaskInfo) : ℕ → TaskInfo := fun i =>
  if tasknum ≤ i ∧ i < taskMaxnum then
    { taskinfo i with name := (taskinfo i).name.set 0 0 }
  else taskinfo i

/-! ## The header -/

/-- `OS_SIZE_LOC` of the tool -/
abbrev osSizeLoc : ℕ := 0x1fe - 2

/-- `TASK_NUM_LOC` of the tool -/
abbrev taskNumLoc : ℕ := osSizeLoc - 2

/-- `TASKINFO_OFFSET_LOC` of the tool -/
abbrev taskinfoOffsetLoc : ℕ := taskNumLoc - 4

/-- `BATCH_OFFSET_LOC` of the tool -/
abbrev batchOffsetLoc : ℕ := taskinfoOffsetLoc - 4

/-- `SWAP_OFFSET_LOC` of the tool; its comment gives `0x1ed`. -/
abbrev swapOffsetLoc : ℕ := batchOffsetLoc - 4

/-- `NBYTES2SEC` -/
def nbytes2sec (n : ℕ) : ℕ := n / sectorSize + if n % sectorSize ≠ 0 then 1 else 0

/-- What the image says about itself, as the tool computed it. -/
structure ImgInfo where
  numsecsKernel : ℕ
  tasknum : ℕ
  taskInfoOffset : ℕ
  batchOffset : ℕ
  swapOffset : ℕ
  taskinfo : ℕ → TaskInfo

/-- `fwrite` of one record at `a`. -/
def putTask (m : Mem) (a : ℕ) (t : TaskInfo) : Mem :=
  let m := blit m a (fun i => t.name.toList.getD i 0) 0 16
  let m := putLe m (a + 16) 8 t.imageOffset.toNat
  let m := putLe m (a + 24) 8 t.vaddr.toNat
  let m := putLe m (a + 32) 8 t.memsz.toNat
  putLe m (a + 40) 8 t.filesz.toNat

/-- `fwrite` of the first `n` records at `a`. -/
def putTasks (m : Mem) (a : ℕ) (taskinfo : ℕ → TaskInfo) : ℕ → Mem
  | 0 => m
  | n + 1 => putTask (putTasks m a taskinfo n) (a + taskInfoSize * n) (taskinfo n)

/-- The values `write_img_info` computes. -/
def imgInfo (nbytesKernel : ℕ) (taskinfo : ℕ → TaskInfo) (tasknum taskInfoOffset : ℕ) : ImgInfo :=
  let havenOffset := taskInfoOffset + taskMaxnum * taskInfoSize
  let rest := havenOffset % sectorSize
  let startBlock := if rest ≠ 0 then havenOffset / sectorSize + 1 else havenOffset / sectorSize
  let batchOffset := startBlock * sectorSize
  { numsecsKernel := nbytes2sec nbytesKernel
    tasknum := tasknum
    taskInfoOffset := taskInfoOffset
    batchOffset := batchOffset
    swapOffset := batchOffset + sectorSize
    taskinfo := taskinfo }

/-- The header fields, in the order the tool writes them. -/
def writeHeader (m : Mem) (i : ImgInfo) : Mem :=
  let m := putLe m osSizeLoc 2 i.numsecsKernel
  let m := putLe m 0x1fe 2 0xaa55
  let m := putLe m taskNumLoc 2 i.tasknum
  let m := putLe m taskinfoOffsetLoc 4 i.taskInfoOffset
  let m := putLe m batchOffsetLoc 4 i.batchOffset
  putLe m swapOffsetLoc 4 i.swapOffset

/-- `write_img_info` -/
def writeImgInfo (m : Mem) (i : ImgInfo) : Mem :=
  let m := putTasks m i.taskInfoOffset i.taskinfo i.tasknum
  let havenOffset := i.taskInfoOffset + taskMaxnum * taskInfoSize
  -- the padding starts at the batch sector but is as long as if it started at `haven_offset`
  let m := fill m i.batchOffset 0 (i.batchOffset + sectorSize - havenOffset)
  writeHeader m i

/-- The programs of the image, before its header is written. -/
def programs (files : List Elf) : Build := addFiles 0 Build.empty files

/-- What `create_image` encodes for these files. -/
def encoded (files : List Elf) : ImgInfo :=
  let b := programs files
  let tasknum := files.length - 2
  imgInfo b.nbytesKernel (blankRest tasknum b.taskinfo) tasknum b.phyaddr

/-- `create_image` -/
def createImage (files : List Elf) : Mem := writeImgInfo (programs files).img (encoded files)

/-! ## The readers at boot -/

/-- An `int` or `short` of `w` bytes at `a`. -/
def signed (m : Mem) (a w : ℕ) : ℤ :=
  if 2 * le m a w < 256 ^ w then (le m a w : ℤ) else (le m a w : ℤ) - 256 ^ w

/-- The sectors the bootblock loads: `lh a1, 0(os_size_loc)`. -/
def bootKernelSectors (disk : Mem) : ℤ := signed disk 0x1fc 2

/-- `TASK_NUM_LOC`, `TASKINFO_OFFSET_LOC` and `BATCH_OFFSET_LOC` of `os/task.h`. -/
abbrev taskNumPtr : ℕ := 0x1fa
abbrev taskinfoOffsetPtr : ℕ := 0x1f6
abbrev batchOffsetPtr : ℕ := 0x1f2

/-- `SWAP_OFFSET_LOC` of `os/swap.h`. -/
abbrev swapOffsetPtr : ℕ := 0x1ed

/-- `SWAP_SIZE` of `os/swap.h`. -/
abbrev swapSize : ℕ := 256 * 1024 * 1024

/-- Record at byte `a`. -/
def getTask (m : Mem) (a : ℕ) : TaskInfo :=
  { name := Vector.ofFn fun i => m (a + i)
    imageOffset := BitVec.ofNat 64 (le m (a + 16) 8)
    vaddr := BitVec.ofNat 64 (le m (a + 24) 8)
    memsz := BitVec.ofNat 64 (le m (a + 32) 8)
    filesz := BitVec.ofNat 64 (le m (a + 40) 8) }

/-- What `init_task_info` leaves in the kernel's variables. -/
structure TaskVars where
  tasknum : ℤ
  taskinfoOffsetImg : ℤ
  batchOffsetImg : ℤ
  tasks : ℕ → TaskInfo

/-- An `int` as an `unsigned`. -/
def toUnsigned (n : ℤ) : ℕ := (n % 2 ^ 32).toNat

/-- `init_task_info`, with the contents of the buffer at `TEMP`. -/
def initTaskInfo (disk temp : Mem) : TaskVars :=
  let taskinfoOffset := signed disk taskinfoOffsetPtr 4
  let startBlock := toUnsigned (taskinfoOffset.tdiv sectorSize)
  let totalBytes := taskMaxnum * taskInfoSize
  let endBlock := toUnsigned ((taskinfoOffset + totalBytes - 1).tdiv sectorSize)
  let numBlock := endBlock - startBlock + 1
  let offsetInblock := toUnsigned (taskinfoOffset.tmod sectorSize)
  let temp := blit temp 0 disk (sectorSize * startBlock) (sectorSize * numBlock)
  { tasknum := signed disk taskNumPtr 2
    taskinfoOffsetImg := taskinfoOffset
    batchOffsetImg := signed disk batchOffsetPtr 4
    tasks := fun i => getTask temp (offsetInblock + taskInfoSize * i) }

/-- The `swap_offset` that `init_swap` reads. -/
def initSwapOffset (disk : Mem) : ℤ := signed disk swapOffsetPtr 4

/-- `SWAP_START_SEC` -/
def swapStartSec (disk : Mem) : ℕ := toUnsigned ((initSwapOffset disk).tdiv sectorSize)

end RiscvKernel.Boot
