import RiscvKernel.Fs.Lookup

/-!
# The descriptor tables

`fdesc_array` is a static array of a header, so `fs.c` and `fs_tools.c` have a copy each. `do_open`,
`do_close` and the other calls use the one of `fs.c`; `alloc_fd` looks into the one of `fs_tools.c`,
which nobody writes to. So `alloc_fd` always finds descriptor 0, and descriptors are distinct as long
as descriptor 0 is closed whenever a file is opened (`open_descriptors_distinct`).

Nothing is assumed about the disk here.
-/

namespace RiscvKernel.Fs

open Lib Lib.Run

/-! ## Calls that leave the tables alone -/

/-- The descriptor tables are unchanged. -/
def SameFds (s s' : State) : Prop :=
  s'.fdescArray = s.fdescArray ∧ s'.fdescArrayTools = s.fdescArrayTools

theorem SameFds.refl (s : State) : SameFds s s := ⟨rfl, rfl⟩

theorem SameFds.trans {s s' s'' : State} (h : SameFds s s') (h' : SameFds s' s'') :
    SameFds s s'' := ⟨h'.1.trans h.1, h'.2.trans h.2⟩

theorem Quiet.sameFds {s s' : State} (h : Quiet s s') : SameFds s s' := by
  obtain ⟨t, rfl, -⟩ := h
  exact ⟨rfl, rfl⟩

section Writes

variable {s s' : State} (h : SameFds s s')

include h

theorem SameFds.readBlock (b o : ℕ) : SameFds s (readBlock s' b o) := h

theorem SameFds.writeBlock (b o : ℕ) : SameFds s (writeBlock s' b o) := h

theorem SameFds.writeInode (n : ℕ) (x : Inode) : SameFds s (writeInode s' n x) := h

theorem SameFds.setTemp (t : Mem) : SameFds s (s'.setTemp t) := h

end Writes

theorem sameFds_allocIn (s : State) (f : Superblock → ℕ) (n : ℕ) :
    SameFds s (allocIn s f n).2 := by
  have h1 : SameFds s (if s.sbValid then s else { readSb s with sbValid := true }) := by
    split_ifs
    · exact SameFds.refl s
    · exact ⟨rfl, rfl⟩
  unfold allocIn
  dsimp only
  split
  · exact h1
  · exact h1

theorem sameFds_allocBlock (s : State) : SameFds s (allocBlock s).2 := sameFds_allocIn _ _ _

theorem sameFds_allocInode (s : State) : SameFds s (allocInode s).2 := sameFds_allocIn _ _ _

theorem sameFds_indexEntry (s : State) (b k : ℕ) (alloc : Bool) :
    SameFds s (indexEntry s b k alloc).2 := by
  have h1 := (SameFds.refl s).readBlock b 0
  have h2 := h1.trans (sameFds_allocBlock (readBlock s b 0))
  unfold indexEntry
  dsimp only
  split_ifs
  · exact h2.setTemp _
  · exact (h2.setTemp _).writeBlock _ _
  · exact h1

theorem sameFds_allocIndexBlock (s : State) (o : ℕ) : SameFds s (allocIndexBlock s o).2 := by
  unfold allocIndexBlock
  dsimp only
  split_ifs
  · exact sameFds_allocBlock s
  · exact ((sameFds_allocBlock s).setTemp _).writeBlock _ _

theorem sameFds_doubleEntry (s : State) (b i j : ℕ) (alloc : Bool) :
    SameFds s (doubleEntry s b i j alloc).2 := by
  have h1 := (SameFds.refl s).readBlock b 0
  have h2 := h1.trans (sameFds_allocIndexBlock (readBlock s b 0) blockSize)
  unfold doubleEntry
  dsimp only
  split_ifs
  · exact h2
  · exact ((h2.setTemp _).writeBlock _ _).trans (sameFds_indexEntry _ _ _ _)
  · exact h1
  · exact h1.trans (sameFds_indexEntry _ _ _ _)

theorem sameFds_getPhysicalBlockId (s : State) (node : Inode) (n l : ℕ) (alloc : Bool) :
    SameFds s (getPhysicalBlockId s node n l alloc).2.2 := by
  have hi := sameFds_allocIndexBlock s 0
  unfold getPhysicalBlockId
  dsimp only
  split_ifs
  · exact sameFds_allocBlock s
  · exact (sameFds_allocBlock s).writeInode _ _
  · exact SameFds.refl s
  · exact hi
  · exact (hi.writeInode _ _).trans (sameFds_indexEntry _ _ _ _)
  · exact SameFds.refl s
  · exact sameFds_indexEntry _ _ _ _
  · exact hi
  · exact (hi.writeInode _ _).trans (sameFds_doubleEntry _ _ _ _ _)
  · exact SameFds.refl s
  · exact sameFds_doubleEntry _ _ _ _ _
  · exact SameFds.refl s

theorem sameFds_appendDentry (s : State) (node : Inode) (n : ℕ) (dentry : Mem) :
    SameFds s (appendDentry s node n dentry).2 := by
  have h1 := (quiet_searchDentry isFree n node (numBlocks node) 0 s s (Quiet.refl s)).1.sameFds
  unfold appendDentry
  dsimp only
  revert h1
  rcases searchDentry isFree n 0 (numBlocks node) node s with ⟨_ | ⟨b, j⟩, node1, s1⟩
  · intro h1
    have h2 := h1.trans (sameFds_getPhysicalBlockId s1 node1 n (numBlocks node) true)
    dsimp only
    split_ifs
    · exact h2
    · exact (h2.setTemp _).writeBlock _ _
  · exact fun h1 => (h1.setTemp _).writeBlock _ _

theorem sameFds_doTouch (s : State) (path : CStr) : SameFds s (doTouch s path).2 := by
  have h1 : SameFds s (splitParent s path).2.2 := by
    unfold splitParent
    split
    · exact SameFds.refl s
    · exact (quiet_findInodeByPath s _).sameFds
  unfold doTouch
  revert h1
  rcases splitParent s path with ⟨p, x, s1⟩
  intro h1
  have h2 := h1.trans (quiet_findInodeByName s1 p x).sameFds
  dsimp only
  split_ifs
  · exact h1
  · exact h2
  · have h3 := h2.trans (sameFds_allocInode (findInodeByName s1 p x).2)
    have h4 := h3.writeInode (allocInode (findInodeByName s1 p x).2).1 newFileInode
    exact (h4.trans (sameFds_appendDentry _ _ _ _)).writeInode _ _

/-! ## Opening -/

/-- `alloc_fd` when the table of `fs_tools.c` is empty. -/
theorem allocFd_zero {s : State} (h : ∀ fd, (s.fdescArrayTools fd).used = 0) : allocFd s = 0 := by
  unfold allocFd
  rw [show scan _ 0 numFdescs = some 0 from scan_eq_some.mpr
    ⟨0, le_rfl, by simp only [numFdescs]; omega, if_pos (h 0), fun k h1 h2 => by omega⟩]
  rfl

/-- What `do_open` does to the tables: nothing, or it installs descriptor 0. -/
theorem doOpen_fds {s : State} (h : ∀ fd, (s.fdescArrayTools fd).used = 0) (path : CStr)
    (mode : ℕ) :
    (doOpen s path mode).2.fdescArrayTools = s.fdescArrayTools ∧
    (((doOpen s path mode).1 = -1 ∧ (doOpen s path mode).2.fdescArray = s.fdescArray) ∨
      ((doOpen s path mode).1 = 0 ∧ ∃ n, (doOpen s path mode).2.fdescArray =
        Function.update s.fdescArray 0 ⟨n, mode, 0, 1⟩)) := by
  have key : ∀ s1 : State, SameFds s s1 → ∀ n,
      (openInode s1 n mode).2.fdescArrayTools = s.fdescArrayTools ∧
      (((openInode s1 n mode).1 = -1 ∧ (openInode s1 n mode).2.fdescArray = s.fdescArray) ∨
        ((openInode s1 n mode).1 = 0 ∧ ∃ n', (openInode s1 n mode).2.fdescArray =
          Function.update s.fdescArray 0 ⟨n', mode, 0, 1⟩)) := by
    intro s1 hs n
    have h0 : allocFd s1 = 0 := allocFd_zero fun fd => by rw [hs.2]; exact h fd
    unfold openInode
    rw [h0]
    split_ifs
    · exact ⟨hs.2, Or.inl ⟨rfl, hs.1⟩⟩
    · exact ⟨hs.2, Or.inr ⟨rfl, n, by rw [← hs.1]; rfl⟩⟩
  have h1 := (quiet_findInodeByPath s path).sameFds
  unfold doOpen
  revert h1
  rcases findInodeByPath s path with ⟨n, s1⟩
  intro h1
  have h2 := h1.trans (sameFds_doTouch s1 path)
  dsimp only
  split_ifs
  · exact ⟨h2.2, Or.inl ⟨rfl, h2.1⟩⟩
  · exact key _ h2 _
  · exact ⟨h1.2, Or.inl ⟨rfl, h1.1⟩⟩
  · exact key _ h1 _

/-! ## Runs of `do_open` and `do_close` -/

def Call.IsOpen (c : Call) : Prop := ∃ p stack path mode, c = .fs p stack (.open path mode)

def Call.IsClose (fd : ℤ) (c : Call) : Prop := ∃ p stack, c = .fs p stack (.close fd)

/-- A step that opens or closes a descriptor; a file is opened while descriptor 0 is closed. -/
def Call.OpensClosed (y : Sys) (c : Call) : Prop :=
  (c.IsOpen ∧ (y.fdescArray 0).used = 0) ∨ ∃ fd, c.IsClose fd

/-- The descriptors that have been returned and not been closed since. -/
def Sys.pending (y : Sys) (c : Call) (l : List ℤ) : List ℤ :=
  match c with
  | .fs _ _ (.open _ _) => if 0 ≤ y.ret c then y.ret c :: l else l
  | .fs _ _ (.close fd) => if y.ret c = 0 then l.erase fd else l
  | _ => l

/-- The pending descriptors after a run. -/
def pendingAfter : Sys → List Call → List ℤ → List ℤ
  | _, [], l => l
  | y, c :: cs, l => pendingAfter (y.step c) cs (y.pending c l)

theorem open_step {y : Sys} (ht : ∀ fd, (y.fdescArrayTools fd).used = 0) {c : Call}
    (hc : c.IsOpen) :
    (y.step c).fdescArrayTools = y.fdescArrayTools ∧
    ((y.ret c = -1 ∧ (y.step c).fdescArray = y.fdescArray) ∨
      (y.ret c = 0 ∧ ∃ n mode, (y.step c).fdescArray =
        Function.update y.fdescArray 0 ⟨n, mode, 0, 1⟩)) := by
  obtain ⟨p, stack, path, mode, rfl⟩ := hc
  obtain ⟨h1, h2 | ⟨h2, n, h3⟩⟩ := doOpen_fds (s := y.load p stack) ht path mode
  · exact ⟨h1, Or.inl h2⟩
  · exact ⟨h1, Or.inr ⟨h2, n, mode, h3⟩⟩

theorem close_step {y : Sys} {fd : ℤ} {c : Call} (hc : c.IsClose fd) :
    (y.step c).fdescArrayTools = y.fdescArrayTools ∧
    ((y.ret c = -1 ∧ (y.step c).fdescArray = y.fdescArray) ∨
      (y.ret c = 0 ∧ 0 ≤ fd ∧ (y.step c).fdescArray = Function.update y.fdescArray fd.toNat
        { y.fdescArray fd.toNat with used := 0, pos := 0 })) := by
  obtain ⟨p, stack, rfl⟩ := hc
  show (doClose (y.load p stack) fd).2.fdescArrayTools = _ ∧
    (((doClose (y.load p stack) fd).1 = -1 ∧ (doClose (y.load p stack) fd).2.fdescArray = _) ∨
    ((doClose (y.load p stack) fd).1 = 0 ∧ 0 ≤ fd ∧ (doClose (y.load p stack) fd).2.fdescArray = _))
  unfold doClose
  split_ifs with ho
  · exact ⟨rfl, Or.inr ⟨rfl, ho.1, rfl⟩⟩
  · exact ⟨rfl, Or.inl ⟨rfl, rfl⟩⟩

/-- The table of `fs_tools.c` stays as it is. -/
theorem tools_step {y : Sys} (ht : ∀ fd, (y.fdescArrayTools fd).used = 0) {c : Call}
    (hc : c.OpensClosed y) : ∀ fd, ((y.step c).fdescArrayTools fd).used = 0 := by
  rcases hc with ⟨ho, -⟩ | ⟨fd, hc⟩
  · rw [(open_step ht ho).1]
    exact ht
  · rw [(close_step hc).1]
    exact ht

/-- A descriptor in use stays in use until it is closed. -/
theorem used_step {y : Sys} (ht : ∀ fd, (y.fdescArrayTools fd).used = 0) {c : Call}
    (hc : c.OpensClosed y) (hn : ¬ c.IsClose 0) (hu : (y.fdescArray 0).used ≠ 0) :
    ((y.step c).fdescArray 0).used ≠ 0 := by
  rcases hc with ⟨-, h0⟩ | ⟨fd, hc⟩
  · exact absurd h0 hu
  · rcases (close_step (y := y) hc).2 with ⟨-, e⟩ | ⟨-, hfd, e⟩
    · rwa [e]
    · have hne : 0 ≠ fd.toNat := by
        intro e0
        obtain rfl : fd = 0 := by omega
        exact hn hc
      rwa [e, Function.update_of_ne hne]

/-- The pending descriptors are none, or descriptor 0. -/
def PendingOk (y : Sys) (l : List ℤ) : Prop := l = [] ∨ (l = [0] ∧ (y.fdescArray 0).used ≠ 0)

theorem pendingOk_step {y : Sys} (ht : ∀ fd, (y.fdescArrayTools fd).used = 0) {c : Call}
    (hc : c.OpensClosed y) {l : List ℤ} (hl : PendingOk y l) :
    PendingOk (y.step c) (y.pending c l) := by
  rcases hc with ⟨ho, h0⟩ | ⟨fd, hc⟩
  · obtain rfl : l = [] := hl.resolve_right fun h => h.2 h0
    have hp : y.pending c [] = if 0 ≤ y.ret c then [y.ret c] else [] := by
      obtain ⟨p, stack, path, mode, rfl⟩ := ho
      rfl
    rw [hp]
    rcases (open_step ht ho).2 with ⟨hr, -⟩ | ⟨hr, n, mode, e⟩
    · rw [hr]
      exact Or.inl rfl
    · rw [hr]
      exact Or.inr ⟨rfl, by rw [e]; simp⟩
  · have hp : y.pending c l = if y.ret c = 0 then l.erase fd else l := by
      obtain ⟨p, stack, rfl⟩ := hc
      rfl
    rw [hp]
    rcases (close_step (y := y) hc).2 with ⟨hr, e⟩ | ⟨hr, hfd, e⟩
    · rw [hr, if_neg (by decide)]
      exact hl.imp id fun h => ⟨h.1, by rw [e]; exact h.2⟩
    · rw [hr, if_pos rfl]
      rcases hl with rfl | ⟨rfl, hu⟩
      · exact Or.inl rfl
      · by_cases h0 : fd = 0
        · subst h0
          exact Or.inl rfl
        · refine Or.inr ⟨?_, ?_⟩
          · rw [List.erase_of_not_mem]
            simpa using h0
          · rwa [e, Function.update_of_ne (by omega)]

theorem pendingOk_run {cs : List Call} : ∀ {y : Sys} {l : List ℤ},
    (∀ fd, (y.fdescArrayTools fd).used = 0) → PendingOk y l →
    Valid Sys.step (fun y c => c.OpensClosed y) y cs →
    PendingOk (run Sys.step y cs) (pendingAfter y cs l) := by
  induction cs with
  | nil => exact fun _ hl _ => hl
  | cons c cs ih => exact fun ht hl hv => ih (tools_step ht hv.1) (pendingOk_step ht hv.1 hl) hv.2

theorem used_run {cs : List Call} : ∀ {y : Sys}, (∀ fd, (y.fdescArrayTools fd).used = 0) →
    Valid Sys.step (fun y c => c.OpensClosed y) y cs → (∀ c ∈ cs, ¬ c.IsClose 0) →
    (y.fdescArray 0).used ≠ 0 → ((run Sys.step y cs).fdescArray 0).used ≠ 0 := by
  induction cs with
  | nil => exact fun _ _ _ hu => hu
  | cons c cs ih =>
    exact fun ht hv hn hu => ih (tools_step ht hv.1) hv.2
      (fun c' hc' => hn c' (List.mem_cons_of_mem _ hc'))
      (used_step ht hv.1 (hn c List.mem_cons_self) hu)

/-- Open descriptors are distinct, there are at most `NUM_FDESCS` of them, and `do_open` leaves them
alone: in every run of `do_open` and `do_close`, by any processes, in which a file is opened only
while descriptor 0 is closed. -/
theorem open_descriptors_distinct {y : Sys} (ht : ∀ fd, (y.fdescArrayTools fd).used = 0)
    {cs : List Call} (hv : Valid Sys.step (fun y c => c.OpensClosed y) y cs) :
    (∀ cs1 c1 cs2 c2 cs3, cs = cs1 ++ c1 :: (cs2 ++ c2 :: cs3) → c1.IsOpen → c2.IsOpen →
      0 ≤ (run Sys.step y cs1).ret c1 → 0 ≤ (run Sys.step y (cs1 ++ c1 :: cs2)).ret c2 →
      (∀ c ∈ cs2, ¬ c.IsClose ((run Sys.step y cs1).ret c1)) →
      (run Sys.step y cs1).ret c1 ≠ (run Sys.step y (cs1 ++ c1 :: cs2)).ret c2) ∧
    (pendingAfter y cs []).length ≤ numFdescs ∧
    ∀ cs1 c cs2, cs = cs1 ++ c :: cs2 → c.IsOpen →
      ∀ fd, ((run Sys.step y cs1).fdescArray fd).used ≠ 0 →
        ((run Sys.step y cs1).step c).fdescArray fd = (run Sys.step y cs1).fdescArray fd := by
  have htr : ∀ cs1, Valid Sys.step (fun y c => c.OpensClosed y) y cs1 →
      ∀ fd, ((run Sys.step y cs1).fdescArrayTools fd).used = 0 := fun cs1 h =>
    h.inv (I := fun z => ∀ fd, (z.fdescArrayTools fd).used = 0) (fun _ _ h1 h2 => tools_step h1 h2)
      ht
  refine ⟨?_, ?_, ?_⟩
  · rintro cs1 c1 cs2 c2 cs3 rfl h1 h2 hr1 - hno -
    -- descriptor 0 is in use when the second file is opened
    obtain ⟨hv1, hc1, hv2⟩ := valid_append.mp hv
    obtain ⟨hv3, hc2, -⟩ := valid_append.mp hv2
    have ht1 := htr cs1 hv1
    rcases (open_step ht1 h1).2 with ⟨hr, -⟩ | ⟨hr, n, mode, e⟩
    · rw [hr] at hr1
      omega
    · rw [hr] at hno
      have hu := used_run (tools_step ht1 hc1) hv3 hno (by rw [e]; simp)
      rcases hc2 with ⟨-, h0⟩ | ⟨fd, p, stack, rfl⟩
      · exact hu h0
      · obtain ⟨_, _, _, _, h2⟩ := h2
        cases h2
  · rcases pendingOk_run ht (Or.inl rfl) hv with h | ⟨h, -⟩
    · rw [h]
      exact Nat.zero_le _
    · rw [h, List.length_singleton]
      norm_num
  · rintro cs1 c cs2 rfl ho fd hu
    obtain ⟨hv1, hc, -⟩ := valid_append.mp hv
    have h0 : ((run Sys.step y cs1).fdescArray 0).used = 0 := by
      rcases hc with ⟨-, h0⟩ | ⟨fd, p, stack, rfl⟩
      · exact h0
      · obtain ⟨_, _, _, _, h2⟩ := ho
        cases h2
    have hne : fd ≠ 0 := by
      rintro rfl
      exact hu h0
    rcases (open_step (htr cs1 hv1) ho).2 with ⟨-, e⟩ | ⟨-, n, mode, e⟩
    · rw [e]
    · rw [e, Function.update_of_ne hne]

/-- Two files, one after the other. -/
def reopenRun : List Call :=
  [.fs 0 (fun _ => 0#8) (.open [97#8] oRdwr), .fs 0 (fun _ => 0#8) (.close 0),
    .fs 1 (fun _ => 0#8) (.open [98#8] oRdwr)]

theorem open_descriptors_distinct_reopenRun :
    (pendingAfter boot reopenRun []).length ≤ numFdescs := by
  have hv : Valid Sys.step (fun y c => c.OpensClosed y) boot reopenRun :=
    ⟨Or.inl ⟨⟨_, _, _, _, rfl⟩, rfl⟩, Or.inr ⟨0, _, _, rfl⟩,
      Or.inl ⟨⟨_, _, _, _, rfl⟩, by decide +kernel⟩, trivial⟩
  exact (open_descriptors_distinct (y := boot) (fun _ => rfl) hv).2.1

/-- Both files get descriptor 0, which then belongs to the second one. -/
theorem open_descriptors_clash :
    boot.ret (.fs 0 (fun _ => 0#8) (.open [97#8] oRdwr)) = 0 ∧
      (run Sys.step boot [.fs 0 (fun _ => 0#8) (.open [97#8] oRdwr)]).ret
        (.fs 1 (fun _ => 0#8) (.open [98#8] oRdwr)) = 0 ∧
      ((run Sys.step boot [.fs 0 (fun _ => 0#8) (.open [97#8] oRdwr)]).fdescArray 0).inodeNum = 1 ∧
      ((run Sys.step boot [.fs 0 (fun _ => 0#8) (.open [97#8] oRdwr),
        .fs 1 (fun _ => 0#8) (.open [98#8] oRdwr)]).fdescArray 0).inodeNum = 2 := by
  decide +kernel

end RiscvKernel.Fs
