import RiscvKernel.Lib.CStr
import RiscvKernel.Lib.Loop

/-!
# Memory management

Physical memory is a byte memory addressed by kernel virtual addresses. Page tables, the list of free
pages and the pages of user programs all live in it. The functions are those of `mm.c`,
`pgtable.h`, `swap.c`, `shm.c`, `free.c` and `page_fault.c` and the loader. A function whose loop may
fail to terminate gives `none` when it does not return.

`pageLog` records the pages that are handed out and the pages that go back to the list of free pages;
nothing depends on it.
-/

namespace RiscvKernel.Mm

open Lib

def pageSize : ℕ := 4096
def numPteEntry : ℕ := 512
def kernelPteIndexStart : ℕ := 0x100
def userMaxVa : ℕ := 0x3FFFFFFFFF
def kvaPaOffset : ℕ := 0xffffffc000000000
def pgdirPa : ℕ := 0x51000000
def freememKernel : ℕ := 0xffffffc052001000
def userStackAddr : ℕ := 0xf00010000
def maxAllowablePages : ℕ := 4
def swapMaxPages : ℕ := 65536
def sectorSize : ℕ := 512
def sectorNumsPerPage : ℕ := 8
def shmMaxNum : ℕ := 16
def shmVaBase : ℕ := 0x90000000
def taskMaxnum : ℕ := 32
def temp : ℕ := 0xffffffc059000000

def pagePresent : ℕ := 1
def pageRead : ℕ := 2
def pageWrite : ℕ := 4
def pageExec : ℕ := 8
def pageUser : ℕ := 16
def pageAccessed : ℕ := 64
def pageDirty : ℕ := 128
def pageSwap : ℕ := 256
def pageShm : ℕ := 512

/-- What `active_pages` records of a page. -/
structure ActivePage where
  kva : ℕ
  pte : ℕ
  vaddr : ℕ
  pid : ℤ
  valid : Bool

/-- A slot of `shm_table`. -/
structure Shm where
  key : ℤ
  va : ℕ
  pa : ℕ
  refCount : ℤ
  valid : Bool

/-- A program of the image. -/
structure TaskInfo where
  name : CStr
  imageOffset : ℕ
  vaddr : ℕ
  memsz : ℕ
  filesz : ℕ

/-- What happened to a page. -/
inductive PageEvent
  | alloc (kva : ℕ)
  | free (kva : ℕ)
deriving DecidableEq

/-- The state of the memory management. -/
structure Memory where
  mem : Mem
  sd : Mem
  tasks : ℕ → TaskInfo
  freePageList : ℕ
  freePageListCount : ℤ
  kernMemCurr : ℕ
  activePages : ℕ → ActivePage
  activePageCount : ℤ
  clockHead : ℕ
  swapPageStatus : ℕ → Bool
  swapStartSec : ℕ
  shmTable : ℕ → Shm
  pageLog : List PageEvent

/-! ## Addresses and page table entries -/

def kva2pa (kva : ℕ) : ℕ := (kva + 2 ^ 64 - kvaPaOffset) % 2 ^ 64

def pa2kva (pa : ℕ) : ℕ := (pa + kvaPaOffset) % 2 ^ 64

def round (a n : ℕ) : ℕ := (a + n - 1) / n * n % 2 ^ 64

def rounddown (a n : ℕ) : ℕ := a / n * n

def getVpn2 (va : ℕ) : ℕ := va / 2 ^ 30 % 512
def getVpn1 (va : ℕ) : ℕ := va / 2 ^ 21 % 512
def getVpn0 (va : ℕ) : ℕ := va / 2 ^ 12 % 512

/-- The physical page of an entry. -/
def getPa (entry : ℕ) : ℕ := entry / 2 ^ 10 * 2 ^ 12 % 2 ^ 64

def getAttribute (entry mask : ℕ) : ℕ := entry &&& mask

/-- The entry with another page frame number and the same flags. -/
def setPfn (entry pfn : ℕ) : ℕ := (pfn * 2 ^ 10 + entry % 2 ^ 10) % 2 ^ 64

/-- The entry with other flags and the same page frame number. -/
def setAttribute (entry bits : ℕ) : ℕ := entry / 2 ^ 10 * 2 ^ 10 ||| bits

/-- The entry at an address. -/
def readPte (m : Memory) (a : ℕ) : ℕ := le m.mem a 8

def writePte (a v : ℕ) (m : Memory) : Memory := { m with mem := putLe m.mem a 8 v }

/-- `memset(kva, 0, PAGE_SIZE)`, and `clear_pgdir`. -/
def clearPage (kva : ℕ) (m : Memory) : Memory := { m with mem := fill m.mem kva 0#8 pageSize }

/-! ## Free pages -/

/-- `allocPage`. -/
def allocPage (numPage : ℕ) (m : Memory) : ℕ × Memory :=
  if numPage = 1 ∧ m.freePageList ≠ 0 then
    let ret := m.freePageList
    (ret, clearPage ret { m with
      freePageList := le m.mem ret 8
      freePageListCount := m.freePageListCount - 1
      pageLog := m.pageLog ++ [.alloc ret] })
  else
    let ret := round m.kernMemCurr pageSize
    (ret, { m with
      kernMemCurr := ret + numPage * pageSize
      pageLog := m.pageLog ++ [.alloc ret] })

/-- `freePage`. -/
def freePage (baseAddr : ℕ) (m : Memory) : Memory :=
  if baseAddr = 0 then m
  else
    { m with
      mem := putLe m.mem baseAddr 8 m.freePageList
      freePageList := baseAddr
      freePageListCount := m.freePageListCount + 1
      pageLog := m.pageLog ++ [.free baseAddr] }

/-! ## Page tables -/

/-- `share_pgtable`. -/
def sharePgtable (dest src : ℕ) (m : Memory) : Memory :=
  { m with mem := blit m.mem dest m.mem src pageSize }

/-- Allocate the table that the entry at `a` points to, if there is none. -/
def ensureTable (a : ℕ) (m : Memory) : Memory :=
  if getAttribute (readPte m a) pagePresent = 0 then
    let (newPage, m) := allocPage 1 m
    let m := writePte a (setPfn (readPte m a) (kva2pa newPage / pageSize)) m
    let m := writePte a (setAttribute (readPte m a) pagePresent) m
    clearPage newPage m
  else m

/-- `map_page`. -/
def mapPage (va pa pgdir flags : ℕ) (m : Memory) : Memory :=
  let e2 := pgdir + 8 * getVpn2 va
  let m := ensureTable e2 m
  let e1 := pa2kva (getPa (readPte m e2)) + 8 * getVpn1 va
  let m := ensureTable e1 m
  let e0 := pa2kva (getPa (readPte m e1)) + 8 * getVpn0 va
  let m := writePte e0 (setPfn (readPte m e0) (pa / pageSize)) m
  writePte e0 (setAttribute (readPte m e0) (flags ||| pagePresent ||| pageAccessed ||| pageDirty)) m

/-- `get_pte`: the address of the entry of `va`. -/
def getPte (va pgdir : ℕ) (m : Memory) : Option ℕ :=
  let e2 := readPte m (pgdir + 8 * getVpn2 va)
  if getAttribute e2 pagePresent = 0 then none
  else
    let e1 := readPte m (pa2kva (getPa e2) + 8 * getVpn1 va)
    if getAttribute e1 pagePresent = 0 then none
    else some (pa2kva (getPa e1) + 8 * getVpn0 va)

/-- `alloc_page_helper`. -/
def allocPageHelper (va pgdir : ℕ) (m : Memory) : ℕ × Memory :=
  let (pageKva, m) := allocPage 1 m
  let m := clearPage pageKva m
  (pageKva, mapPage va (kva2pa pageKva) pgdir
    (pagePresent ||| pageRead ||| pageWrite ||| pageExec ||| pageUser) m)

/-! ## Swapping -/

/-- `get_free_active_page_slot`. -/
def getFreeActivePageSlot (m : Memory) : Option ℕ :=
  scan (fun i => if (m.activePages i).valid then none else some i) 0 maxAllowablePages

/-- `get_free_swap_id`. -/
def getFreeSwapId (m : Memory) : Option (ℕ × Memory) :=
  (scan (fun i => if m.swapPageStatus i then none else some i) 0 swapMaxPages).map fun i =>
    (i, { m with swapPageStatus := Function.update m.swapPageStatus i true })

/-- `while (!active_pages[clock_head].valid) clock_head = (clock_head + 1) % MAX_ALLOWABLE_PAGES`:
the position it stops at. It goes round for ever when there is no valid entry. -/
def nextValid (m : Memory) : ℕ → ℕ → Option ℕ
  | 0, _ => none
  | fuel + 1, i =>
    if (m.activePages i).valid then some i else nextValid m fuel ((i + 1) % maxAllowablePages)

/-- `remove_from_active_list`. -/
def removeFromActiveList (pageKva : ℕ) (m : Memory) : Option Memory :=
  match scan (fun i => if (m.activePages i).kva = pageKva then some i else none) 0
      maxAllowablePages with
  | none => some m
  | some idx =>
    let m := { m with
      activePages := Function.update m.activePages idx { m.activePages idx with valid := false }
      activePageCount := m.activePageCount - 1 }
    if 0 < m.activePageCount ∧ m.clockHead = idx then
      (nextValid m (maxAllowablePages + 1) m.clockHead).map fun i => { m with clockHead := i }
    else some m

/-- The byte offset of a page of the swap area. -/
def swapOffset (swapIndex : ℕ) (m : Memory) : ℕ :=
  (m.swapStartSec + swapIndex * sectorNumsPerPage) * sectorSize

def swapWrite (kva swapIndex : ℕ) (m : Memory) : Memory :=
  { m with sd := blit m.sd (swapOffset swapIndex m) m.mem kva (sectorNumsPerPage * sectorSize) }

def swapRead (kva swapIndex : ℕ) (m : Memory) : Memory :=
  { m with mem := blit m.mem kva m.sd (swapOffset swapIndex m) (sectorNumsPerPage * sectorSize) }

/-- The second-chance search of `swap_out`. Every entry is passed at most once before one with a clear
accessed bit is met. -/
def clockScan : ℕ → Memory → Option Memory
  | 0, _ => none
  | fuel + 1, m =>
    (nextValid m (maxAllowablePages + 1) m.clockHead).bind fun i =>
      let m := { m with clockHead := i }
      let pte := (m.activePages i).pte
      if getAttribute (readPte m pte) pageAccessed ≠ 0 then
        let m := writePte pte (setAttribute (readPte m pte)
          (getAttribute (readPte m pte) 0x3ff &&& (0xffffffffffffffff - pageAccessed))) m
        clockScan fuel { m with clockHead := (m.clockHead + 1) % maxAllowablePages }
      else some m

/-- `swap_out`: the slot that has become free, `none` when the swap area is full. -/
def swapOut (m : Memory) : Option (Option ℕ × Memory) :=
  (clockScan (maxAllowablePages + 1) m).map fun m =>
    let victim := m.activePages m.clockHead
    match getFreeSwapId m with
    | none => (none, m)
    | some (swapId, m) =>
      let m := swapWrite victim.kva swapId m
      let m := writePte victim.pte (swapId * 2 ^ 10 ||| pageSwap) m
      let m := freePage victim.kva m
      (some m.clockHead, { m with clockHead := (m.clockHead + 1) % maxAllowablePages })

/-- `swap_in`. -/
def swapIn (kva swapId : ℕ) (m : Memory) : Memory :=
  let m := swapRead kva swapId m
  { m with swapPageStatus := Function.update m.swapPageStatus swapId false }

/-- `add_to_active_list` of a process with root table `pgdir`. The flag is `false` when the swap area is
full; the caller then runs `do_exit`. -/
def addToActiveList (pa va : ℕ) (pid : ℤ) (pgdir : ℕ) (m : Memory) : Option (Bool × Memory) :=
  let record (idx : ℕ) (m : Memory) : Bool × Memory :=
    let e : ActivePage := { m.activePages idx with pid := pid, vaddr := va, kva := pa2kva pa, valid := true }
    match getPte va pgdir m with
    | none =>
      (true, { m with
        activePages := Function.update m.activePages idx { e with valid := false }
        activePageCount := m.activePageCount - 1 })
    | some pte => (true, { m with activePages := Function.update m.activePages idx { e with pte := pte } })
  if m.activePageCount < maxAllowablePages then
    match getFreeActivePageSlot m with
    | none => some (true, m)
    | some idx => some (record idx { m with activePageCount := m.activePageCount + 1 })
  else
    (swapOut m).map fun
      | (none, m) => (false, m)
      | (some idx, m) => record idx m

/-! ## Page faults -/

/-- `handle_page_fault` of a process with root table `pgdir`: the address of the new page. The branch for
address 0 is left out, `allocPage` does not give this address. -/
def handlePageFault (stval pgdir : ℕ) (m : Memory) : ℕ × Memory :=
  let swapId := (getPte stval pgdir m).bind fun pte =>
    if getAttribute (readPte m pte) pagePresent = 0 ∧ getAttribute (readPte m pte) pageSwap ≠ 0 then
      some (readPte m pte / 2 ^ 10)
    else none
  let (kva, m) := allocPageHelper stval pgdir m
  match swapId with
  | some swapId => (kva, swapIn kva swapId m)
  | none => (kva, clearPage kva m)

/-- `check_one_page`. -/
def checkOnePage (va pgdir : ℕ) (m : Memory) : ℕ × Memory :=
  match getPte va pgdir m with
  | some pte =>
    if getAttribute (readPte m pte) pagePresent ≠ 0 then (pa2kva (getPa (readPte m pte)), m)
    else handlePageFault va pgdir m
  | none => handlePageFault va pgdir m

/-! ## Shared pages -/

/-- `shm_map_page`. -/
def shmMapPage (va pa pgdir : ℕ) (m : Memory) : Memory :=
  mapPage va pa pgdir (pageRead ||| pageWrite ||| pageExec ||| pageUser ||| pageShm) m

/-- `shm_page_get` of a process with root table `pgdir`: the address of the page, 0 when the table is full. -/
def shmPageGet (key : ℤ) (pgdir : ℕ) (m : Memory) : ℕ × Memory :=
  match scan (fun i => if (m.shmTable i).valid ∧ (m.shmTable i).key = key then some i else none) 0 shmMaxNum with
  | some i =>
    let e := m.shmTable i
    let m := shmMapPage e.va e.pa pgdir m
    (e.va, { m with shmTable := Function.update m.shmTable i { e with refCount := e.refCount + 1 } })
  | none =>
    match scan (fun i => if (m.shmTable i).valid then none else some i) 0 shmMaxNum with
    | some i =>
      let (kva, m) := allocPage 1 m
      let e := { m.shmTable i with key := key, pa := kva2pa kva, refCount := 1, valid := true }
      (e.va, shmMapPage e.va e.pa pgdir { m with shmTable := Function.update m.shmTable i e })
    | none => (0, m)

/-! ## Freeing an address space -/

/-- `shm_page_dt` of a process with root table `pgdir`. -/
def shmPageDt (addr pgdir : ℕ) (m : Memory) : Memory :=
  match getPte addr pgdir m with
  | none => m
  | some pte =>
    if getAttribute (readPte m pte) pagePresent = 0 then m
    else
      let m :=
        match scan (fun i => if (m.shmTable i).valid ∧ (m.shmTable i).va = addr then some i else none) 0
            shmMaxNum with
        | none => m
        | some i =>
          let e := { m.shmTable i with refCount := (m.shmTable i).refCount - 1 }
          if e.refCount = 0 then
            freePage (pa2kva e.pa) { m with shmTable := Function.update m.shmTable i { e with valid := false } }
          else { m with shmTable := Function.update m.shmTable i e }
      writePte pte 0 m

/-- What `free_page_table_helper` does with the present entry `pte` of a table of level 0. -/
def freeLeaf (curPgdir va pte : ℕ) (m : Memory) : Option Memory :=
  if getAttribute pte pageShm ≠ 0 then some (shmPageDt va curPgdir m)
  else
    let childKva := pa2kva (getPa pte)
    removeFromActiveList childKva (freePage childKva m)

/-- One round of `free_page_table_helper`; `child` is what it does with a present entry. -/
def freeEntry (child : ℕ → ℕ → Memory → Option Memory) (level pgdir baseVa i : ℕ) (m : Memory) : Option Memory :=
  let pte := readPte m (pgdir + 8 * i)
  let currentVa := baseVa + i * 2 ^ (12 + level * 9)
  if currentVa > userMaxVa then some m
  else if i ≥ kernelPteIndexStart then some m
  else
    (if getAttribute pte pagePresent ≠ 0 then child currentVa pte m
      else if level = 0 ∧ getAttribute pte pageSwap ≠ 0 then
        let swapId := pte / 2 ^ 10 % 2 ^ 32
        some (if swapId < swapMaxPages then
            { m with swapPageStatus := Function.update m.swapPageStatus swapId false }
          else m)
      else some m).map (writePte (pgdir + 8 * i) 0)

/-- `free_page_table_helper`. -/
def freePageTableHelper (curPgdir : ℕ) : ℕ → ℕ → ℕ → Memory → Option Memory
  | 0, pgdir, baseVa, m =>
    (loopM (freeEntry (freeLeaf curPgdir) 0 pgdir baseVa) 0 numPteEntry m).map (freePage pgdir)
  | level + 1, pgdir, baseVa, m =>
    (loopM (freeEntry (fun va pte => freePageTableHelper curPgdir level (pa2kva (getPa pte)) va)
      (level + 1) pgdir baseVa) 0 numPteEntry m).map (freePage pgdir)

/-- `free_all_pages` called by a process with root table `curPgdir`. -/
def freeAllPages (curPgdir pgdirKva : ℕ) (m : Memory) : Option Memory := freePageTableHelper curPgdir 2 pgdirKva 0 m

/-! ## Loading a program -/

/-- The loop of `load_task_img` over the pages of the segment. -/
def loadPages (pgdir : ℕ) : ℕ → ℕ → ℕ → ℕ → ℕ → Memory → Memory
  | 0, _, _, _, _, m => m
  | fuel + 1, currentVa, currentOffset, remainingFilesz, remainingMemsz, m =>
    if remainingMemsz = 0 then m
    else
      let (pageKva, m) := allocPageHelper currentVa pgdir m
      let pageOffset := currentVa % pageSize
      let pageRemain := pageSize - pageOffset
      let copyLen := if remainingFilesz < pageRemain then remainingFilesz else pageRemain
      let m :=
        if 0 < copyLen then
          let startSec := currentOffset / sectorSize
          let endSec := (currentOffset + copyLen - 1) / sectorSize
          let numSecs := endSec - startSec + 1
          let m := { m with mem := blit m.mem temp m.sd (startSec * sectorSize) (numSecs * sectorSize) }
          { m with mem := blit m.mem (pageKva + pageOffset) m.mem (temp + currentOffset % sectorSize) copyLen }
        else m
      let m :=
        if copyLen < pageRemain then
          { m with mem := fill m.mem (pageKva + pageOffset + copyLen) 0#8 (pageRemain - copyLen) }
        else m
      loadPages pgdir fuel (currentVa + pageRemain) (currentOffset + copyLen) (remainingFilesz - copyLen)
        (remainingMemsz - pageRemain) m

/-- `load_task_img`: the entry point, 0 for an unknown name. -/
def loadTaskImg (taskname : CStr) (pgdir : ℕ) (m : Memory) : ℕ × Memory :=
  match scan (fun i => if taskname ≠ [] ∧ taskname = (m.tasks i).name then some i else none) 0
      taskMaxnum with
  | none => (0, m)
  | some i =>
    let t := m.tasks i
    (t.vaddr, loadPages pgdir t.memsz t.vaddr t.imageOffset t.filesz t.memsz m)

end RiscvKernel.Mm
