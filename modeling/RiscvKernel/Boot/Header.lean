import Mathlib
import RiscvKernel.Boot.Image

/-!
# What the readers find in the image

`OthersAgree` says that the kernel's sector count, the number of tasks, the two offsets and the
task records are read back as they were written, and that the regions of the image do not overlap;
it holds of every image that fits below the file system (`othersAgree`). `HeaderAgrees` adds the swap
offset. The tool stores it one byte above the place where `init_swap` reads it, and no image
gets around that (`header_disagrees`).
-/

namespace RiscvKernel.Boot

open Lib Fs

/-- The regions of the disk as `(start, end)`: programs, records, batch sector, swap area, file
system. -/
def regions (i : ImgInfo) : List (ℕ × ℕ) :=
  [(0, i.taskInfoOffset),
    (i.taskInfoOffset, i.taskInfoOffset + taskMaxnum * taskInfoSize),
    (i.batchOffset, i.batchOffset + sectorSize),
    (i.swapOffset, i.swapOffset + swapSize),
    (sectorSize * fsStartSector, sectorSize * fsStartSector + fsSize)]

/-- The readers agree with the tool on everything but the swap offset. -/
structure OthersAgree (files : List Elf) (temp : Mem) : Prop where
  kernel : bootKernelSectors (createImage files) = (encoded files).numsecsKernel
  tasknum : (initTaskInfo (createImage files) temp).tasknum = (encoded files).tasknum
  taskInfoOffset : (initTaskInfo (createImage files) temp).taskinfoOffsetImg =
    (encoded files).taskInfoOffset
  batchOffset : (initTaskInfo (createImage files) temp).batchOffsetImg = (encoded files).batchOffset
  records : ∀ i < (encoded files).tasknum,
    (initTaskInfo (createImage files) temp).tasks i = (encoded files).taskinfo i
  unused : ∀ i, (encoded files).tasknum ≤ i → i < taskMaxnum →
    ((initTaskInfo (createImage files) temp).tasks i).name[0] = 0
  disjoint : (regions (encoded files)).Pairwise fun r s =>
    Disjoint (Set.Ico r.1 r.2) (Set.Ico s.1 s.2)

/-- The readers agree with the tool. -/
structure HeaderAgrees (files : List Elf) (temp : Mem) : Prop extends OthersAgree files temp where
  swapOffset : initSwapOffset (createImage files) = (encoded files).swapOffset

/-! ## The swap offset -/

/-- A short number is the low part of a longer one. -/
theorem le_three (m : Mem) (a : ℕ) : le m a 3 = le m a 4 % 2 ^ 24 := by
  have h0 := (m a).isLt
  have h1 := (m (a + 1)).isLt
  have h2 := (m (a + 1 + 1)).isLt
  simp only [le]
  omega

/-- A signed read gives a number exactly when its bytes hold it and it is small enough. -/
theorem signed_eq_iff {m : Mem} {a w v : ℕ} :
    signed m a w = v ↔ le m a w = v ∧ 2 * v < 256 ^ w := by
  have hlt : (le m a w : ℤ) < 256 ^ w := by exact_mod_cast le_lt m a w
  unfold signed
  constructor
  · intro h
    split at h
    · have : le m a w = v := by exact_mod_cast h
      exact ⟨this, by omega⟩
    · omega
  · rintro ⟨rfl, hv⟩
    rw [if_pos hv]

/-! ## The records -/

/-- The numbers behind the names, for `omega`. -/
theorem sizes : taskInfoSize = 48 ∧ taskMaxnum = 32 ∧ maxNameLen = 15 ∧ sectorSize = 512 ∧
    swapOffsetLoc = 0x1ee ∧ batchOffsetLoc = 0x1f2 ∧ taskinfoOffsetLoc = 0x1f6 ∧
    taskNumLoc = 0x1fa ∧ osSizeLoc = 0x1fc := by decide

theorem putTask_out {m : Mem} {a x : ℕ} (t : TaskInfo) (h : x < a ∨ a + taskInfoSize ≤ x) :
    putTask m a t x = m x := by
  have := sizes
  unfold putTask
  rw [putLe_out (by omega), putLe_out (by omega), putLe_out (by omega), putLe_out (by omega),
    blit_out (by omega)]

/-- What `getTask` reads are the 48 bytes from `a` on. -/
theorem getTask_congr {m m' : Mem} {a a' : ℕ} (h : ∀ i < taskInfoSize, m (a + i) = m' (a' + i)) :
    getTask m a = getTask m' a' := by
  have field (k : ℕ) (hk : k + 8 ≤ taskInfoSize) : le m (a + k) 8 = le m' (a' + k) 8 := by
    apply le_congr
    intro i hi
    rw [Nat.add_assoc, Nat.add_assoc]
    exact h (k + i) (by omega)
  have := sizes
  unfold getTask
  rw [field 16 (by decide), field 24 (by decide), field 32 (by decide), field 40 (by decide)]
  congr 1
  apply congrArg
  funext i
  exact h i (by omega)

theorem getTask_putTask (m : Mem) (a : ℕ) (t : TaskInfo) : getTask (putTask m a t) a = t := by
  have hname : (Vector.ofFn fun i : Fin (maxNameLen + 1) => putTask m a t (a + i)) = t.name := by
    apply Vector.ext
    intro i hi
    have := sizes
    rw [Vector.getElem_ofFn]
    show putTask m a t (a + i) = _
    unfold putTask
    rw [putLe_out (by omega), putLe_out (by omega), putLe_out (by omega), putLe_out (by omega),
      blit_in hi, Nat.zero_add]
    simp [hi]
  have h16 : le (putTask m a t) (a + 16) 8 = t.imageOffset.toNat := by
    unfold putTask
    rw [le_putLe_of_disjoint (by omega), le_putLe_of_disjoint (by omega),
      le_putLe_of_disjoint (by omega), le_putLe_self]
    exact Nat.mod_eq_of_lt t.imageOffset.isLt
  have h24 : le (putTask m a t) (a + 24) 8 = t.vaddr.toNat := by
    unfold putTask
    rw [le_putLe_of_disjoint (by omega), le_putLe_of_disjoint (by omega), le_putLe_self]
    exact Nat.mod_eq_of_lt t.vaddr.isLt
  have h32 : le (putTask m a t) (a + 32) 8 = t.memsz.toNat := by
    unfold putTask
    rw [le_putLe_of_disjoint (by omega), le_putLe_self]
    exact Nat.mod_eq_of_lt t.memsz.isLt
  have h40 : le (putTask m a t) (a + 40) 8 = t.filesz.toNat := by
    unfold putTask
    rw [le_putLe_self]
    exact Nat.mod_eq_of_lt t.filesz.isLt
  unfold getTask
  rw [hname, h16, h24, h32, h40]
  simp only [BitVec.ofNat_toNat, BitVec.setWidth_eq]

theorem putTasks_out {m : Mem} {a n x : ℕ} (t : ℕ → TaskInfo)
    (h : x < a ∨ a + taskInfoSize * n ≤ x) : putTasks m a t n x = m x := by
  induction n with
  | zero => rfl
  | succ n ih =>
    have := sizes
    rw [Nat.mul_succ] at h
    rw [putTasks, putTask_out _ (by omega), ih (by omega)]

theorem getTask_putTasks {m : Mem} {a n k : ℕ} (t : ℕ → TaskInfo) (hk : k < n) :
    getTask (putTasks m a t n) (a + taskInfoSize * k) = t k := by
  induction n with
  | zero => omega
  | succ n ih =>
    have := sizes
    rw [putTasks]
    rcases Nat.lt_succ_iff_lt_or_eq.mp hk with hlt | rfl
    · rw [← ih hlt]
      have hle : taskInfoSize * (k + 1) ≤ taskInfoSize * n := Nat.mul_le_mul_left _ hlt
      rw [Nat.mul_succ] at hle
      apply getTask_congr
      intro i hi
      exact putTask_out _ (by omega)
    · exact getTask_putTask _ _ _

/-! ## The header fields -/

section header
variable (m : Mem) (i : ImgInfo)

theorem le_header_swap : le (writeHeader m i) swapOffsetLoc 4 = i.swapOffset % 2 ^ 32 :=
  le_putLe_self _ _ _ _

theorem le_header_batch : le (writeHeader m i) batchOffsetPtr 4 = i.batchOffset % 2 ^ 32 := by
  unfold writeHeader
  rw [le_putLe_of_disjoint (by decide)]
  exact le_putLe_self _ _ _ _

theorem le_header_taskinfo :
    le (writeHeader m i) taskinfoOffsetPtr 4 = i.taskInfoOffset % 2 ^ 32 := by
  unfold writeHeader
  rw [le_putLe_of_disjoint (by decide), le_putLe_of_disjoint (by decide)]
  exact le_putLe_self _ _ _ _

theorem le_header_tasknum : le (writeHeader m i) taskNumPtr 2 = i.tasknum % 2 ^ 16 := by
  unfold writeHeader
  rw [le_putLe_of_disjoint (by decide), le_putLe_of_disjoint (by decide),
    le_putLe_of_disjoint (by decide)]
  exact le_putLe_self _ _ _ _

theorem le_header_kernel : le (writeHeader m i) 0x1fc 2 = i.numsecsKernel % 2 ^ 16 := by
  unfold writeHeader
  rw [le_putLe_of_disjoint (by decide), le_putLe_of_disjoint (by decide),
    le_putLe_of_disjoint (by decide), le_putLe_of_disjoint (by decide),
    le_putLe_of_disjoint (by decide)]
  exact le_putLe_self _ _ _ _

theorem writeHeader_out {x : ℕ} (h : sectorSize ≤ x) : writeHeader m i x = m x := by
  have := sizes
  unfold writeHeader
  rw [putLe_out (by omega), putLe_out (by omega), putLe_out (by omega), putLe_out (by omega),
    putLe_out (by omega), putLe_out (by omega)]

end header

/-! ## The swap offset -/

theorem imgInfo_swapOffset (n : ℕ) (t : ℕ → TaskInfo) (k p : ℕ) :
    ∃ q, (imgInfo n t k p).swapOffset = 512 * (q + 1) := by
  refine ⟨(imgInfo n t k p).batchOffset / sectorSize, ?_⟩
  have hb : (imgInfo n t k p).batchOffset % 512 = 0 := Nat.mul_mod_left _ _
  show (imgInfo n t k p).batchOffset + 512 = 512 * ((imgInfo n t k p).batchOffset / 512 + 1)
  omega

/-- No image holds a swap offset that `init_swap` reads back: a multiple of 512 whose four bytes
are also those one place below would have all its bytes zero. -/
theorem header_disagrees (files : List Elf) (temp : Mem) : ¬ HeaderAgrees files temp := by
  intro h
  obtain ⟨q, hq⟩ : ∃ q, (encoded files).swapOffset = 512 * (q + 1) :=
    imgInfo_swapOffset _ _ _ _
  obtain ⟨hread, hsmall⟩ := signed_eq_iff.mp h.swapOffset
  have hstored : le (createImage files) swapOffsetLoc 4 = (encoded files).swapOffset % 2 ^ 32 :=
    le_header_swap _ _
  -- the four bytes read are one byte from below and the low three of those stored
  have hbyte := (createImage files swapOffsetPtr).isLt
  have hsplit : le (createImage files) swapOffsetPtr 4 =
      (createImage files swapOffsetPtr).toNat + 256 * le (createImage files) swapOffsetLoc 3 := rfl
  rw [le_three, hstored, hread, hq] at hsplit
  rw [hq] at hsmall
  omega

/-! ## Everything else -/

/-- Nothing is written at or above the next program byte. -/
def Blank (b : Build) : Prop := ∀ a, b.phyaddr ≤ a → b.img a = 0

/-- A step of `create_image`: the image only grows, and stays blank above. -/
structure Grows (b b' : Build) : Prop where
  le : b.phyaddr ≤ b'.phyaddr
  blank : Blank b → Blank b'

namespace Grows

theorem refl (b : Build) : Grows b b := ⟨le_rfl, id⟩

theorem trans {a b c : Build} (h : Grows a b) (h' : Grows b c) : Grows a c :=
  ⟨h.le.trans h'.le, fun ha => h'.blank (h.blank ha)⟩

/-- A step that leaves the image and its end alone. -/
theorem of_eq {b b' : Build} (hi : b'.img = b.img) (hp : b'.phyaddr = b.phyaddr) : Grows b b' :=
  ⟨hp.ge, fun h a ha => by rw [hi]; exact h a (hp ▸ ha)⟩

end Grows

theorem writeSegment_grows (b : Build) (ph : Phdr) : Grows b (writeSegment b ph) := by
  unfold writeSegment
  split
  · refine ⟨Nat.le_add_right _ _, fun h a ha => ?_⟩
    have ha : b.phyaddr + ph.filesz.toNat ≤ a := ha
    exact (blit_out (by omega)).trans (h a (by omega))
  · exact Grows.refl b

theorem writePadding_grows (b : Build) (p : ℕ) : Grows b (writePadding b p) := by
  refine ⟨Nat.le_max_left _ _, fun h a ha => ?_⟩
  have ha : max b.phyaddr p ≤ a := ha
  exact (fill_out (by omega)).trans (h a (by omega))

theorem setRecord_grows (fidx : ℕ) (f : TaskInfo → TaskInfo) (b : Build) :
    Grows b (setRecord fidx f b) := by
  unfold setRecord
  split
  · exact Grows.of_eq rfl rfl
  · exact Grows.refl b

theorem addPhdr_grows (fidx : ℕ) (name : List Byte) (b : Build) (ph : Phdr) :
    Grows b (addPhdr fidx name b ph) := by
  unfold addPhdr
  split
  · have hseg (f : TaskInfo → TaskInfo) :=
      (setRecord_grows fidx f b).trans (writeSegment_grows _ ph)
    dsimp only
    split
    · exact (hseg _).trans (Grows.of_eq rfl rfl)
    · exact hseg _
  · exact Grows.refl b

theorem addPhdrs_grows (fidx : ℕ) (name : List Byte) (phs : List Phdr) (b : Build) :
    Grows b (phs.foldl (addPhdr fidx name) b) := by
  induction phs generalizing b with
  | nil => exact Grows.refl b
  | cons ph phs ih => exact (addPhdr_grows fidx name b ph).trans (ih _)

theorem addFile_grows (fidx : ℕ) (b : Build) (f : Elf) : Grows b (addFile fidx b f) := by
  have hfile (g : TaskInfo → TaskInfo) :=
    (addPhdrs_grows fidx f.name f.phdrs b).trans (setRecord_grows fidx g _)
  unfold addFile
  dsimp only
  split
  · exact (hfile _).trans (writePadding_grows _ _)
  · exact hfile _

theorem addFiles_grows (fidx : ℕ) (b : Build) (fs : List Elf) :
    Grows b (addFiles fidx b fs) := by
  induction fs generalizing fidx b with
  | nil => exact Grows.refl b
  | cons f fs ih => exact (addFile_grows fidx b f).trans (ih _ _)

/-- The bootblock fills the first sector. -/
theorem bootblock_sector (b : Build) (f : Elf) (hf : f.name = bootblockName) :
    sectorSize ≤ (addFile 0 b f).phyaddr := by
  unfold addFile
  dsimp only
  rw [if_pos hf]
  exact Nat.le_max_right _ _

theorem programs_blank (files : List Elf) : Blank (programs files) :=
  (addFiles_grows 0 Build.empty files).blank fun _ _ => rfl

theorem programs_sector (boot : Elf) (files : List Elf) (hb : boot.name = bootblockName) :
    sectorSize ≤ (programs (boot :: files)).phyaddr :=
  (bootblock_sector Build.empty boot hb).trans (addFiles_grows 1 _ files).le

/-- The batch sector is the first one at or after the end of the records. -/
theorem imgInfo_batchOffset (n : ℕ) (t : ℕ → TaskInfo) (k p : ℕ) :
    p + 1536 ≤ (imgInfo n t k p).batchOffset := by
  unfold imgInfo
  dsimp only [sectorSize, taskMaxnum, taskInfoSize]
  split <;> omega

/-- Above the first sector and below the batch sector the image holds the programs and the
records. -/
theorem createImage_records (files : List Elf) {x : ℕ} (hx : sectorSize ≤ x)
    (hx' : x < (encoded files).batchOffset) :
    createImage files x = putTasks (programs files).img (encoded files).taskInfoOffset
      (encoded files).taskinfo (encoded files).tasknum x := by
  unfold createImage writeImgInfo
  rw [writeHeader_out _ _ hx]
  exact fill_out (Or.inl hx')

/-- `init_task_info` finds record `i` in the image. -/
theorem initTaskInfo_tasks {disk : Mem} {o : ℕ} (temp : Mem) (ho : le disk taskinfoOffsetPtr 4 = o)
    (ho' : 2 * o + 4096 < 2 ^ 32) {i : ℕ} (hi : i < taskMaxnum) :
    (initTaskInfo disk temp).tasks i = getTask disk (o + taskInfoSize * i) := by
  have hoff : signed disk taskinfoOffsetPtr 4 = o := signed_eq_iff.mpr ⟨ho, by omega⟩
  have hnat (k : ℕ) (hk : k < 2 ^ 32) : toUnsigned (k : ℤ) = k := by
    unfold toUnsigned
    omega
  have hstart : toUnsigned ((o : ℤ).tdiv (sectorSize : ℕ)) = o / 512 := by
    rw [← Int.ofNat_tdiv]
    exact hnat (o / 512) (by omega)
  have hend : toUnsigned (((o : ℤ) + (taskMaxnum * taskInfoSize : ℕ) - 1).tdiv (sectorSize : ℕ)) =
      (o + 1535) / 512 := by
    rw [show (o : ℤ) + (taskMaxnum * taskInfoSize : ℕ) - 1 = (o + 1535 : ℕ) by push_cast; ring,
      ← Int.ofNat_tdiv]
    exact hnat ((o + 1535) / 512) (by omega)
  have hin : toUnsigned ((o : ℤ).tmod (sectorSize : ℕ)) = o % 512 := by
    rw [← Int.ofNat_tmod]
    exact hnat (o % 512) (by omega)
  unfold initTaskInfo
  dsimp only
  rw [hoff, hstart, hend, hin]
  apply getTask_congr
  intro j hj
  have hi : i < 32 := hi
  have hj : j < 48 := hj
  show blit temp 0 disk (512 * (o / 512)) (512 * ((o + 1535) / 512 - o / 512 + 1))
    (o % 512 + 48 * i + j) = disk (o + 48 * i + j)
  rw [blit_in_of_le (by omega) (by omega), Nat.sub_zero]
  apply congrArg
  omega

/-- An image of a bootblock, a kernel of fewer than `2 ^ 15` sectors and at most `TASK_MAXNUM`
applications that leaves room for the swap area below the file system: every reader but
`init_swap` finds what the tool wrote, and no two regions overlap. -/
theorem othersAgree (boot main : Elf) (apps : List Elf) (temp : Mem)
    (hboot : boot.name = bootblockName) (happs : apps.length ≤ taskMaxnum)
    (hkernel : (encoded (boot :: main :: apps)).numsecsKernel < 2 ^ 15)
    (hfit : (encoded (boot :: main :: apps)).swapOffset + swapSize ≤ sectorSize * fsStartSector) :
    OthersAgree (boot :: main :: apps) temp := by
  generalize hfiles : boot :: main :: apps = files at hkernel hfit ⊢
  have hsector : 512 ≤ (encoded files).taskInfoOffset := by
    rw [← hfiles]
    exact programs_sector boot (main :: apps) hboot
  have hnum : (encoded files).tasknum = apps.length := by rw [← hfiles]; rfl
  have hbatch : (encoded files).taskInfoOffset + 1536 ≤ (encoded files).batchOffset :=
    imgInfo_batchOffset _ _ _ _
  have hswap : (encoded files).swapOffset = (encoded files).batchOffset + 512 := rfl
  have happs : apps.length ≤ 32 := happs
  have hfit : (encoded files).swapOffset + 268435456 ≤ 536870912 := hfit
  have htask : le (createImage files) taskinfoOffsetPtr 4 = (encoded files).taskInfoOffset :=
    (le_header_taskinfo _ _).trans (Nat.mod_eq_of_lt (by omega))
  have hbatchRead : le (createImage files) batchOffsetPtr 4 = (encoded files).batchOffset :=
    (le_header_batch _ _).trans (Nat.mod_eq_of_lt (by omega))
  have hnumRead : le (createImage files) taskNumPtr 2 = (encoded files).tasknum :=
    (le_header_tasknum _ _).trans (Nat.mod_eq_of_lt (by omega))
  have hkernelRead : le (createImage files) 0x1fc 2 = (encoded files).numsecsKernel :=
    (le_header_kernel _ _).trans (Nat.mod_eq_of_lt (by omega))
  -- the bytes of record `i`, as `init_task_info` reads them
  have hrecord (i j : ℕ) (hi : i < 32) (hj : j < 48) :
      createImage files ((encoded files).taskInfoOffset + taskInfoSize * i + j) =
        putTasks (programs files).img (encoded files).taskInfoOffset (encoded files).taskinfo
          (encoded files).tasknum ((encoded files).taskInfoOffset + taskInfoSize * i + j) := by
    have hle : taskInfoSize * i = 48 * i := rfl
    exact createImage_records files (by show 512 ≤ _; omega) (by omega)
  exact {
    kernel := signed_eq_iff.mpr ⟨hkernelRead, by omega⟩
    tasknum := signed_eq_iff.mpr ⟨hnumRead, by omega⟩
    taskInfoOffset := signed_eq_iff.mpr ⟨htask, by omega⟩
    batchOffset := signed_eq_iff.mpr ⟨hbatchRead, by omega⟩
    records := fun i hi => by
      rw [initTaskInfo_tasks temp htask (by omega) (show i < 32 by omega), ← getTask_putTasks
        (m := (programs files).img) (a := (encoded files).taskInfoOffset) (encoded files).taskinfo hi]
      exact getTask_congr fun j hj => hrecord i j (by omega) hj
    unused := fun i hi hi' => by
      have hi' : i < 32 := hi'
      have hle : taskInfoSize * (encoded files).tasknum ≤ taskInfoSize * i :=
        Nat.mul_le_mul_left _ hi
      rw [initTaskInfo_tasks temp htask (by omega) hi']
      show (Vector.ofFn _)[0] = _
      rw [Vector.getElem_ofFn]
      refine (hrecord i 0 hi' (by omega)).trans ?_
      rw [putTasks_out _ (Or.inr (by omega))]
      apply programs_blank
      show (encoded files).taskInfoOffset ≤ _
      omega
    disjoint := by
      have hsep (a b c d : ℕ) (h : b ≤ c) : Disjoint (Set.Ico a b) (Set.Ico c d) := by
        rw [Set.disjoint_left]
        intro x hx hx'
        exact absurd (hx.2.trans_le h) (not_lt.mpr hx'.1)
      unfold regions
      have hfs : sectorSize * fsStartSector = 536870912 := rfl
      have hsw : (encoded files).swapOffset + swapSize = (encoded files).swapOffset + 268435456 := rfl
      have hba : (encoded files).batchOffset + sectorSize = (encoded files).batchOffset + 512 := rfl
      have hti : (encoded files).taskInfoOffset + taskMaxnum * taskInfoSize =
        (encoded files).taskInfoOffset + 1536 := rfl
      simp only [List.pairwise_cons, List.mem_cons, List.not_mem_nil, or_false, forall_eq_or_imp,
        forall_eq, IsEmpty.forall_iff, implies_true, List.Pairwise.nil, and_true]
      refine ⟨⟨?_, ?_, ?_, ?_⟩, ⟨?_, ?_, ?_⟩, ⟨?_, ?_⟩, ?_⟩ <;> apply hsep <;> omega }

/-- A bootblock without code, a kernel of one sector and no applications. -/
def smallImage : List Elf :=
  [⟨bootblockName, []⟩, ⟨mainName, [⟨true, 0x50202000, 512, 512, fun _ => 0x13⟩]⟩]

/-- The swap area of the smallest image starts at byte 3072; `init_swap` reads 786432. -/
theorem smallImage_misread : (encoded smallImage).swapOffset = 3072 ∧
    initSwapOffset (createImage smallImage) = 786432 ∧
    swapStartSec (createImage smallImage) = 1536 ∧ ¬ HeaderAgrees smallImage fun _ => 0 := by
  have h1 : (encoded smallImage).swapOffset = 3072 := by decide +kernel
  have h2 : initSwapOffset (createImage smallImage) = 786432 := by decide +kernel
  refine ⟨h1, h2, by unfold swapStartSec; rw [h2]; decide, fun h => ?_⟩
  have := h.swapOffset
  rw [h1, h2] at this
  exact absurd this (by decide)

end RiscvKernel.Boot
