import RiscvKernel.Fs.Beyond
import RiscvKernel.Fs.Wf

/-!
# Attaching an entry

`do_mkdir`, `do_touch` and `do_ln` end with `append_dentry` and the write of the parent's inode
(`attach`), whatever `append_dentry` could do. Its four outcomes: the entry is in a free slot, it is
in a new block, nothing is attached and a -1 is on the disk as a block pointer, or nothing is
attached.

The name is found afterwards exactly in the first two cases. What a lookup in a directory reads is
small (`SameDir`), so this can be said also of disks that are broken elsewhere.
-/

namespace RiscvKernel.Fs

open Lib Lib.Forest

/-! ## Inodes -/

theorem Inode.eq_of_ptr {x y : Inode} (hm : Inode.SameMeta x y) (hp : y.ptr = x.ptr) : y = x := by
  apply Inode.ext hm.mode hm.type hm.size hm.nlinks
  · funext i
    by_cases hi : i < 10
    · rw [← Inode.ptr_direct _ hi, ← Inode.ptr_direct _ hi, hp]
    · rw [y.direct_of_ge i (by omega), x.direct_of_ge i (by omega)]
  · exact congrFun hp 10
  · exact congrFun hp 11

/-- Writing back an inode that has not changed. -/
theorem putInode_inode (d : Mem) {n : ℕ} (hn : n < 4096) : putInode d n (inode d n) = d := by
  funext a
  unfold putInode
  by_cases ha : itabBase + 64 * n ≤ a ∧ a < itabBase + 64 * n + 64
  · obtain ⟨i, rfl⟩ := Nat.exists_eq_add_of_le ha.1
    rw [blit_in (by omega), Nat.zero_add, inode, if_pos hn, Inode.encode_decode (by omega)]
  · exact blit_out (by omega)

/-! ## Changes elsewhere -/

/-- Inode `p` is the same, and so are the contents of the blocks in use. -/
structure Intact (p : ℕ) (d d' : Mem) : Prop where
  imap : imap d' p = imap d p
  inode : inode d' p = inode d p
  block : ∀ b, bmap d b = true → block d' b = block d b

section Intact

variable {p : ℕ} {d d' : Mem} (h : Intact p d d') (hb : BlkInv d) (hp : Fs.imap d p = true)

include h hb hp

theorem Intact.ref (i : ℕ) (ks : List ℕ) (hs : Shape d (p, i) ks) :
    ref (cells d') (p, i) ks = ref (cells d) (p, i) ks := by
  refine ref_congr (shape_closed d) (fun _ => ?_) (fun k ks hs _ => ?_) ks hs
  · show (Fs.inode d' p).ptr i = (Fs.inode d p).ptr i
    rw [h.inode]
  · exact idx_congr (h.block _ (hb.owned.used_ref (shape_closed _ _ _ _ hs))) k

theorem Intact.pblk (l : ℕ) : pblk d' p l = pblk d p l := by
  by_cases hl : l < maxBlocks
  · exact h.ref hb hp _ _ (blockPath_shape hp hl)
  · rw [pblk_of_ge _ _ (by omega), pblk_of_ge _ _ (by omega)]

theorem Intact.fileBlock (l : ℕ) : fileBlock d' p l = fileBlock d p l := by
  unfold Fs.fileBlock
  rw [h.pblk hb hp, h.block]
  by_cases hl : l < maxBlocks
  · exact hb.owned.used_ref (blockPath_shape hp hl)
  · rw [pblk_of_ge _ _ (by omega)]
    exact hb.bmap_zero

theorem Intact.pathOk {l : ℕ} (hl : l < maxBlocks) : PathOk d' p l := fun ks hks => by
  rw [h.ref hb hp _ _ (shape_suffix hks (blockPath_shape hp hl))]
  exact hb.pathOk hp hl ks hks

theorem Intact.need {l : ℕ} (hl : l < maxBlocks) : need d' p l = need d p l := by
  have h0 : ∀ i, (Fs.inode d' p).ptr i = (Fs.inode d p).ptr i := fun i => by rw [h.inode]
  have hw : ∀ i ks k, Shape d (p, i) (k :: ks) → idx d' (Forest.ref (cells d) (p, i) ks) k =
      idx d (Forest.ref (cells d) (p, i) ks) k := fun i ks k hs =>
    idx_congr (h.block _ (hb.owned.used_ref (shape_closed _ _ _ _ hs))) k
  unfold maxBlocks at hl
  unfold Fs.need
  by_cases h1 : l < 10
  · rw [if_pos h1, if_pos h1, h0]
  rw [if_neg h1, if_neg h1]
  by_cases h2 : l - 10 < 1024
  · have e := hw 10 [] (l - 10) ⟨hp, by simp, by simp, by simpa using h2⟩
    change idx d' ((Fs.inode d p).ptr 10) _ = idx d ((Fs.inode d p).ptr 10) _ at e
    rw [if_pos h2, if_pos h2, h0, e]
  · have e := hw 11 [] ((l - 1034) / 1024) ⟨hp, by simp, by simp, by simp; omega⟩
    change idx d' ((Fs.inode d p).ptr 11) _ = idx d ((Fs.inode d p).ptr 11) _ at e
    rw [if_neg h2, if_neg h2, h0, e]
    by_cases h3 : (Fs.inode d p).ptr 11 = 0
    · rw [if_pos h3, if_pos h3]
    · have e2 := hw 11 [(l - 1034) / 1024] ((l - 1034) % 1024)
        ⟨hp, by simp, by simp, by simp; omega⟩
      rw [ref_cons_of_ne (show Forest.ref (cells d) (p, 11) [] ≠ 0 from h3)] at e2
      change idx d' (idx d ((Fs.inode d p).ptr 11) _) _ =
        idx d (idx d ((Fs.inode d p).ptr 11) _) _ at e2
      rw [e2]

end Intact

theorem firstSlot_congr {d d' : Mem} {p k : ℕ} (hp : ∀ l < k, pblk d' p l = pblk d p l)
    (hf : ∀ l < k, fileBlock d' p l = fileBlock d p l) (P : Mem → ℕ → Bool) :
    firstSlot d' p k P = firstSlot d p k P :=
  scan_congr fun l _ hl => by rw [hp l (by omega), hf l (by omega)]

/-! ## The outcomes of an append -/

/-- The number of logical blocks of `p`, and the next one to be added. -/
def endBlock (d : Mem) (p : ℕ) : ℕ := numBlocks (inode d p)

/-- The inode's own pointer on the way to the next logical block. -/
def topPtr (d : Mem) (p : ℕ) : ℕ := (inode d p).ptr (blockPath (endBlock d p)).1

/-- `append_dentry` finds a place: a slot is free, or there are blocks. -/
def Room (d : Mem) (p : ℕ) : Prop :=
  freeSlot d p ≠ none ∨ need d p (endBlock d p) ≤ freeCount d

/-- `append_dentry`, and the write of the inode by its caller. -/
def attach (s : State) (p : ℕ) (dentry : Mem) : State :=
  let (node, s) := appendDentry s (getInode s p) p dentry
  writeInode s p node

section Intact

variable {p : ℕ} {d d' : Mem} (h : Intact p d d')

include h

theorem Intact.endBlock : endBlock d' p = endBlock d p := by
  unfold Fs.endBlock
  rw [h.inode]

theorem Intact.topPtr : topPtr d' p = topPtr d p := by
  unfold Fs.topPtr
  rw [h.endBlock, h.inode]

variable (hb : BlkInv d) (hp : Fs.imap d p = true)

include hb hp

theorem Intact.freeSlot : freeSlot d' p = freeSlot d p := by
  unfold Fs.freeSlot
  rw [h.inode]
  exact firstSlot_congr (fun l _ => h.pblk hb hp l) (fun l _ => h.fileBlock hb hp l) _

theorem Intact.room (hk : Fs.endBlock d p < maxBlocks) :
    Room d' p ↔ Fs.freeSlot d p ≠ none ∨ Fs.need d p (Fs.endBlock d p) ≤ freeCount d' := by
  unfold Room
  rw [h.freeSlot hb hp, h.endBlock, h.need hb hp hk]

end Intact

section Outcomes

variable {s : State} {p : ℕ} (hp : imap s.disk p = true)

include hp

theorem attach_slot (hk : endBlock s.disk p ≤ maxBlocks)
    (hpath : ∀ l < endBlock s.disk p, PathOk s.disk p l) {l j : ℕ}
    (hfs : freeSlot s.disk p = some (l, j)) (dm : Mem) :
    ∃ t, attach s p dm = s.put (writeSlot s.disk p (l, j) dm) t := by
  have hp' := imap_lt hp
  obtain ⟨-, -, hj, -⟩ := firstSlot_some hfs
  obtain ⟨t, e⟩ := appendDentry_slot (Eq.refl (inode s.disk p).ptr) rfl hk hpath hfs dm
  have hi : inode (writeSlot s.disk p (l, j) dm) p = inode s.disk p := by
    rw [← putBlock_writeSlot hj fun _ _ => rfl, inode_putBlock]
  have hput := putInode_inode (writeSlot s.disk p (l, j) dm) hp'
  rw [hi] at hput
  unfold attach
  rw [getInode_eq s hp']
  simp only [e, writeInode_eq _ hp', State.put_disk, State.put_temp, State.put_put, hput]
  exact ⟨t, rfl⟩

variable (hs : SbOk s) (h : BlkInv s.disk) (hk : endBlock s.disk p < maxBlocks)
  (hno : freeSlot s.disk p = none)

include hs h hk hno

theorem attach_room (hr : need s.disk p (endBlock s.disk p) ≤ freeCount s.disk) (dm : Mem) :
    ∃ d t u y, attach s p dm =
        s.put (putInode (putBlock d (pblk d p (endBlock s.disk p)) u 0) p y) t ∧
      (∀ i < 20, u i = dm i) ∧ (∀ i, 20 ≤ i → i < 4096 → u i = 0#8) ∧
      Grow p (endBlock s.disk p) s.disk d ∧ pblk d p (endBlock s.disk p) ≠ 0 ∧
      freeCount d + need s.disk p (endBlock s.disk p) = freeCount s.disk ∧
      y.ptr = (inode d p).ptr ∧ y.type = (inode s.disk p).type ∧
      y.nlinks = (inode s.disk p).nlinks ∧ y.size = u32 ((inode s.disk p).size + 4096) := by
  have hp' := imap_lt hp
  obtain ⟨d, t, u, node', e, hu, hz, hG, h0, hN, hc⟩ :=
    appendDentry_room (Eq.refl (inode s.disk p).ptr) rfl hs h hp hk hno hr dm
  unfold attach
  rw [getInode_eq s hp']
  simp only [e, writeInode_eq _ hp', State.put_disk, State.put_temp, State.put_put]
  refine ⟨d, t, u, _, rfl, hu, hz, hG, h0, hc, by rw [Inode.ptr_setSize, hN.ptr],
    by rw [Inode.type_setSize, hN.sameMeta.type],
    by rw [Inode.nlinks_setSize, hN.sameMeta.nlinks], ?_⟩
  rw [Inode.size_setSize, hN.sameMeta.size]

theorem attach_short (hr : freeCount s.disk < need s.disk p (endBlock s.disk p)) (dm : Mem) :
    (freeCount s.disk = 0 ∧ topPtr s.disk p = 0 ∧ ∃ t x,
      attach s p dm = (s.put (putInode s.disk p x) t).fail ∧
      Stale (blockPath (endBlock s.disk p)).1 (inode s.disk p) x) ∨
    (∃ d t, attach s p dm = (s.put d t).fail ∧ freeCount d = 0 ∧
      Grow p (endBlock s.disk p) s.disk d ∧ pblk d p (endBlock s.disk p) = 0 ∧
      (freeCount s.disk = 0 → d = s.disk ∧ topPtr s.disk p ≠ 0) ∧
      Inode.SameMeta (inode s.disk p) (inode d p)) := by
  have hp' := imap_lt hp
  obtain ⟨d, t, node', e, hz, hG, h0, hd, hcase⟩ :=
    appendDentry_short (Eq.refl (inode s.disk p).ptr) rfl hs h hp hk hno hr dm
  unfold attach
  rw [getInode_eq s hp']
  have hw : ∀ s : State, writeInode s.fail p node' = (writeInode s p node').fail := fun _ => rfl
  simp only [e, hw, writeInode_eq _ hp', State.put_disk, State.put_temp, State.put_put]
  rcases hcase with ⟨ht, rfl, hS⟩ | ⟨ht, hN, hi⟩
  · exact Or.inl ⟨hz, ht, t, node', rfl, hS⟩
  · -- the inode in memory is the one on the disk
    have hnode : node' = inode d p := by
      rcases hi with hi | hi
      · exact Inode.eq_of_ptr (by rw [hi]; exact hN.sameMeta) hN.ptr
      · exact hi.symm
    refine Or.inr ⟨d, t, ?_, hz, hG, h0, fun hz' => ?_, by rw [← hnode]; exact hN.sameMeta⟩
    · rw [hnode, putInode_inode d hp']
    · obtain rfl := hd hz'
      exact ⟨rfl, ht⟩

end Outcomes

/-- The inode map and the other inodes are as before, and the failure mark is set when there is no
room. -/
theorem attach_frame {s : State} {p : ℕ} (hp : imap s.disk p = true) (hs : SbOk s)
    (h : BlkInv s.disk) (hk : endBlock s.disk p < maxBlocks) (dm : Mem) :
    (∀ m, imap (attach s p dm).disk m = imap s.disk m) ∧
    (∀ m ≠ p, inode (attach s p dm).disk m = inode s.disk m) ∧
    (attach s p dm).fdescArray = s.fdescArray ∧
    (attach s p dm).fdescArrayTools = s.fdescArrayTools ∧
    ((attach s p dm).allocFailed = true ↔ s.allocFailed = true ∨ ¬ Room s.disk p) := by
  cases hfs : freeSlot s.disk p with
  | some σ =>
    obtain ⟨l, j⟩ := σ
    obtain ⟨-, -, hj, -⟩ := firstSlot_some hfs
    obtain ⟨t, e⟩ := attach_slot hp hk.le (fun l hl => h.pathOk hp (by omega)) hfs dm
    have hroom : Room s.disk p := Or.inl (by rw [hfs]; simp)
    rw [e, ← putBlock_writeSlot hj fun _ _ => rfl]
    exact ⟨fun m => imap_putBlock .., fun m _ => inode_putBlock .., rfl, rfl,
      by simp only [State.put_allocFailed, hroom, not_true_eq_false, or_false]⟩
  | none =>
    by_cases hr : need s.disk p (endBlock s.disk p) ≤ freeCount s.disk
    · obtain ⟨d, t, u, y, e, -, -, hG, -⟩ := attach_room hp hs h hk hfs hr dm
      have hroom : Room s.disk p := Or.inr hr
      rw [e]
      refine ⟨fun m => ?_, fun m hm => ?_, rfl, rfl,
        by simp only [State.put_allocFailed, hroom, not_true_eq_false, or_false]⟩
      · rw [State.put_disk, imap_putInode, imap_putBlock, hG.imap]
      · rw [State.put_disk, inode_putInode_of_ne _ _ hm, inode_putBlock, hG.inode_ne m hm]
    · have hroom : ¬ Room s.disk p := by
        unfold Room
        rw [hfs]
        simpa using hr
      rcases attach_short hp hs h hk hfs (not_le.mp hr) dm with
        ⟨-, -, t, x, e, -⟩ | ⟨d, t, e, -, hG, -⟩
      · rw [e]
        exact ⟨fun m => imap_putInode .., fun m hm => inode_putInode_of_ne _ _ hm, rfl, rfl,
          iff_of_true rfl (Or.inr hroom)⟩
      · rw [e]
        exact ⟨hG.imap, hG.inode_ne, rfl, rfl, iff_of_true rfl (Or.inr hroom)⟩

theorem confined_attach {s : State} {p : ℕ} (hp : imap s.disk p = true) (hs : SbOk s)
    (h : BlkInv s.disk) (hk : endBlock s.disk p < maxBlocks) (dm : Mem) :
    Confined s (attach s p dm) := by
  have hp' := imap_lt hp
  unfold attach
  rw [getInode_eq s hp']
  exact (confined_appendDentry hs h hp rfl rfl hk dm).writeInode hp' _

/-! ## Finding the entry -/

/-- The inode number `find_inode_by_name` reads in directory `p`. -/
def dirLookup (d : Mem) (p : ℕ) (x : CStr) : ℕ :=
  match firstSlot d p (dirBlocks d p) fun t => hasName t x with
  | some (l, j) => word (fileBlock d p l) (20 * j + 16)
  | none => neg1

/-- A directory that can be read: what the lookups in it need. -/
structure Readable (d : Mem) (p : ℕ) : Prop where
  imap : imap d p = true
  dir : isDir d p
  ok : DirOk d p
  le : dirBlocks d p ≤ 131072
  path : ∀ l < dirBlocks d p, PathOk d p l

theorem Wf.readable {d : Mem} (h : Wf d) {p : ℕ} (hp : imap d p = true) (hd : isDir d p) :
    Readable d p :=
  have hk := (h.dirs p hp hd).blocks_le h.blk hp
  ⟨hp, hd, h.dirs p hp hd, hk, fun l hl => h.blk.pathOk hp (by unfold maxBlocks; omega)⟩

/-- The two disks have the same directory `p`. -/
structure SameDir (p : ℕ) (d d' : Mem) : Prop where
  imap : imap d' p = imap d p
  type : (inode d' p).type = (inode d p).type
  size : (inode d' p).size = (inode d p).size
  path : ∀ l < dirBlocks d p, PathOk d' p l
  pblk : ∀ l < dirBlocks d p, pblk d' p l = pblk d p l
  block : ∀ l < dirBlocks d p, fileBlock d' p l = fileBlock d p l

section SameDir

variable {p : ℕ} {d d' : Mem}

/-- A change of inode `p`, except for the type and the size, that leaves its logical blocks. -/
theorem Readable.same (h : Readable d p) (hS : SameDir p d d') : Readable d' p := by
  have hdb : dirBlocks d' p = dirBlocks d p := by unfold dirBlocks; rw [hS.size]
  have hdir : isDir d' p := by unfold isDir; rw [hS.type]; exact h.dir
  have hm : Fs.imap d' p = true := hS.imap.trans h.imap
  refine ⟨hm, hdir, ⟨?_, ?_, ?_, ?_⟩, by rw [hdb]; exact h.le, by rw [hdb]; exact hS.path⟩
  · rw [hdb, hS.size]
    exact h.ok.size
  · rw [hdb]
    exact h.ok.pos
  · intro l hl
    rw [hdb] at hl
    rw [hS.pblk l hl]
    exact h.ok.full l hl
  · rintro ⟨q, l, j⟩ x n rfl e
    obtain ⟨-, -, h3, h4⟩ := ent_some e
    simp only [hdb] at h3 h4
    rw [ent_of hm hdir (by rw [hdb]; exact h3) h4, hS.block l h3,
      ← ent_of h.imap h.dir h3 h4] at e
    exact h.ok.names _ x n rfl e

theorem SameDir.dirLookup (hS : SameDir p d d') (x : CStr) :
    dirLookup d' p x = dirLookup d p x := by
  have hdb : dirBlocks d' p = dirBlocks d p := by unfold dirBlocks; rw [hS.size]
  unfold Fs.dirLookup
  rw [hdb, firstSlot_congr hS.pblk hS.block]
  cases hf : firstSlot d p (dirBlocks d p) fun t => hasName t x with
  | none => rfl
  | some σ =>
    obtain ⟨l, j⟩ := σ
    obtain ⟨hl, -⟩ := firstSlot_some hf
    simp only [hS.block l hl]

end SameDir

/-! ## The same directory on two disks -/

section Blocks

variable {p : ℕ} {d d' : Mem} (hb : ∀ b < 131072, block d' b = block d b)

include hb

theorem ref_of_blocks {l : ℕ} (h : PathOk d p l)
    (hptr : (inode d' p).ptr (blockPath l).1 = (inode d p).ptr (blockPath l).1) :
    ∀ ks, ks <:+ (blockPath l).2 →
      ref (cells d') (p, (blockPath l).1) ks = ref (cells d) (p, (blockPath l).1) ks :=
  ref_congr (S := fun _ ks => ks <:+ (blockPath l).2)
    (fun _ _ _ h => (List.suffix_cons _ _).trans h) (fun _ => hptr)
    fun k js hj _ => idx_congr (hb _ (h js ((List.suffix_cons _ _).trans hj))) k

theorem pathOk_of_blocks {l : ℕ} (h : PathOk d p l)
    (hptr : (inode d' p).ptr (blockPath l).1 = (inode d p).ptr (blockPath l).1) : PathOk d' p l :=
  fun ks hks => by
    rw [ref_of_blocks hb h hptr ks hks]
    exact h ks hks

theorem pblk_of_blocks {l : ℕ} (h : PathOk d p l)
    (hptr : (inode d' p).ptr (blockPath l).1 = (inode d p).ptr (blockPath l).1) :
    pblk d' p l = pblk d p l ∧ fileBlock d' p l = fileBlock d p l := by
  have e : pblk d' p l = pblk d p l := ref_of_blocks hb h hptr _ (List.suffix_refl _)
  refine ⟨e, ?_⟩
  unfold fileBlock
  rw [e, hb _ h.pblk_lt]

/-- A directory is read from its inode and from blocks of the file system. -/
theorem sameDir_of_blocks (hpath : ∀ l < dirBlocks d p, PathOk d p l) (hm : Fs.imap d' p = Fs.imap d p)
    (ht : (Fs.inode d' p).type = (inode d p).type) (hs : (inode d' p).size = (inode d p).size)
    (hptr : ∀ l < dirBlocks d p, (inode d' p).ptr (blockPath l).1 = (inode d p).ptr (blockPath l).1) :
    SameDir p d d' :=
  ⟨hm, ht, hs, fun l hl => pathOk_of_blocks hb (hpath l hl) (hptr l hl),
    fun l hl => (pblk_of_blocks hb (hpath l hl) (hptr l hl)).1,
    fun l hl => (pblk_of_blocks hb (hpath l hl) (hptr l hl)).2⟩

end Blocks

theorem Readable.refl {p : ℕ} {d : Mem} (h : Readable d p) : SameDir p d d :=
  ⟨rfl, rfl, rfl, h.path, fun _ _ => rfl, fun _ _ => rfl⟩

theorem SameDir.trans {p : ℕ} {d d' d'' : Mem} (h : SameDir p d d') (h' : SameDir p d' d'') :
    SameDir p d d'' := by
  have hdb : dirBlocks d' p = dirBlocks d p := by
    unfold dirBlocks
    rw [h.size]
  have h3 := h'.path
  have h4 := h'.pblk
  have h5 := h'.block
  rw [hdb] at h3 h4 h5
  exact ⟨h'.imap.trans h.imap, h'.type.trans h.type, h'.size.trans h.size, h3,
    fun l hl => (h4 l hl).trans (h.pblk l hl), fun l hl => (h5 l hl).trans (h.block l hl)⟩

section Inodes

variable {p : ℕ} {d : Mem} (h : Readable d p)

include h

/-- Another inode is written. -/
theorem Readable.putOther {m : ℕ} (hm : m < 4096) (hp : p ≠ m) (x : Inode) :
    SameDir p d (putInode d m x) := by
  have e := inode_putInode_of_ne d x hp
  exact sameDir_of_blocks (fun b _ => block_putInode _ _ hm b) h.path (imap_putInode ..) (by rw [e])
    (by rw [e]) fun _ _ => by rw [e]

/-- The inode is written with another number of links. -/
theorem Readable.putMeta {x : Inode} (hx : x.ptr = (inode d p).ptr)
    (ht : x.type = (inode d p).type) (hs : x.size = (inode d p).size) :
    SameDir p d (putInode d p x) := by
  have hp := imap_lt h.imap
  have e := inode_putInode_self d x hp
  exact sameDir_of_blocks (fun b _ => block_putInode _ _ hp b) h.path (imap_putInode ..) (by rw [e, ht])
    (by rw [e, hs]) fun _ _ => by rw [e, hx]

/-- A pointer on which no block of the directory hangs is overwritten. -/
theorem Readable.putStale (ht : topPtr d p = 0) {x : Inode}
    (hS : Stale (blockPath (endBlock d p)).1 (inode d p) x) : SameDir p d (putInode d p x) := by
  have hp := imap_lt h.imap
  have e := inode_putInode_self d x hp
  refine sameDir_of_blocks (fun b _ => block_putInode _ _ hp b) h.path (imap_putInode ..)
    (by rw [e, hS.sameMeta.type]) (by rw [e, hS.sameMeta.size]) fun l hl => ?_
  rw [e, hS.ptr, if_neg fun hc => h.ok.full l hl (ref_of_root ?_ _)]
  show (inode d p).ptr (blockPath l).1 = 0
  rw [hc]
  exact ht

end Inodes

/-! ## The entry afterwards -/

/-- `find_inode_by_name` in a directory that can be read. -/
theorem Readable.find {s : State} {p : ℕ} (h : Readable s.disk p) {x : CStr} (hx : 0#8 ∉ x) :
    (findInodeByName s p x).1 = dirLookup s.disk p x := by
  have hn : numBlocks (inode s.disk p) = dirBlocks s.disk p := h.ok.numBlocks_eq h.le rfl
  obtain ⟨t, e, ht⟩ := searchDentry_eq (Eq.refl (inode s.disk p).ptr) (k := dirBlocks s.disk p)
    (by have := h.le; unfold maxBlocks; omega) h.path (P := fun t => hasName t x)
    (fun l hl _ j hj t ht => Bool.eq_iff_iff.mpr ((hasName_iff h.imap h.dir h.ok hx hl hj ht).trans
      (hasName_iff h.imap h.dir h.ok hx hl hj fun _ _ => rfl).symm))
  have hd' : (inode s.disk p).type = fdDir := h.dir
  unfold findInodeByName dirLookup
  simp only [getInode_eq s (imap_lt h.imap), hn, e]
  rw [if_neg (not_not_intro hd')]
  cases hf : firstSlot s.disk p (dirBlocks s.disk p) fun t => hasName t x with
  | none => rfl
  | some σ =>
    obtain ⟨l, j⟩ := σ
    obtain ⟨-, -, hj, -⟩ := firstSlot_some hf
    exact word_congr fun i hi =>
      ht l j hf _ (by simp only [dentrySize, maxFnameLen]; omega)

section Found

variable {s : State} (hs : SbOk s) (h : BlkInv s.disk) {p : ℕ} (hr : Readable s.disk p)

include hs h hr

/-- With room, the entry is in the directory. -/
theorem attach_linked {e : CStr × ℕ} (he : e.1.length < 16) {dm : Mem} (hdm : dentryAt dm 0 = some e)
    (hroom : Room s.disk p) :
    ∃ σ d t, attach s p dm = s.put d t ∧ Linked p σ e s.disk d := by
  have hp := hr.imap
  have hle := hr.le
  have hk : endBlock s.disk p = dirBlocks s.disk p := hr.ok.numBlocks_eq hr.le rfl
  have hkm : endBlock s.disk p < maxBlocks := by rw [hk]; unfold maxBlocks; omega
  cases hfs : freeSlot s.disk p with
  | some σ =>
    obtain ⟨l, j⟩ := σ
    obtain ⟨hl, -, hj, hfree⟩ := firstSlot_some hfs
    change l < endBlock s.disk p at hl
    rw [hk] at hl
    rw [isFree_iff hp hr.dir hl hj] at hfree
    obtain ⟨t, e1⟩ := attach_slot hp hkm.le (by rw [hk]; exact hr.path) hfs dm
    refine ⟨(p, l, j), _, t, e1, ?_⟩
    have hL := linked_inPlace h hp hr.dir hr.ok he hl hj hfree
      (t := blit (fileBlock s.disk p l) (20 * j) dm 0 20) (fun i _ hi' => blit_out (by omega))
      (by rw [← hdm]; exact dentryAt_congr fun i hi => blit_in hi) (y := inode s.disk p) rfl rfl rfl
    rw [putBlock_writeSlot hj fun _ _ => rfl] at hL
    have hi : inode (writeSlot s.disk p (l, j) dm) p = inode s.disk p := by
      rw [← putBlock_writeSlot hj fun _ _ => rfl, inode_putBlock]
    rwa [← hi, putInode_inode _ (imap_lt hp)] at hL
  | none =>
    have hneed := hroom.resolve_left (by rw [hfs]; simp)
    obtain ⟨d, t, u, y, e1, hu, hz, hG, h0, -, hptr, hty, -, hsz⟩ :=
      attach_room hp hs h hkm hfs hneed dm
    rw [hk] at e1 hG h0
    refine ⟨(p, dirBlocks s.disk p, 0), _, t, e1, linked_grow h hp hr.dir hr.ok he hG h0 ?_ hz hptr
      (by rw [hty]; exact hr.dir) ?_⟩
    · rw [← hdm]
      exact dentryAt_congr fun i hi => by rw [Nat.zero_add]; exact hu i hi
    · rw [hsz, hr.ok.size, u32_of_lt (by omega)]
      omega

end Found

/-- The new name is found. -/
theorem find_linked {s : State} {p : ℕ} {d : Mem} {σ : Slot} {x : CStr} {n : ℕ}
    (hL : Linked p σ (x, n) d s.disk) (hp : imap s.disk p = true) (hd : isDir s.disk p)
    (hx : 0#8 ∉ x) (hno : ∀ σ m, σ.1 = p → ent d σ ≠ some (x, m)) :
    (findInodeByName s p x).1 = n := by
  have hk := hL.ok.blocks_le hL.only.inv hp
  rcases findInodeByName_spec hp hd hL.ok hk
    (fun l hl => hL.only.inv.pathOk hp (by unfold maxBlocks; omega)) hx with
    ⟨τ, m, t, hτ, hm, e⟩ | ⟨h1, -⟩
  · rw [e]
    rw [hL.ent, Function.update_apply] at hm
    split_ifs at hm with hc
    · cases hm
      rfl
    · exact absurd hm (hno τ m hτ)
  · refine absurd ?_ (h1 σ n hL.owner)
    rw [hL.ent, Function.update_self]

section Short

variable {s : State} (hs : SbOk s) (h : BlkInv s.disk) {p : ℕ} (hr : Readable s.disk p)
  (hno : ¬ Room s.disk p)

include hs h hr hno

/-- Without room, the directory is as before. -/
theorem attach_same (dm : Mem) : SameDir p s.disk (attach s p dm).disk := by
  have hp := hr.imap
  have hle := hr.le
  have hk : endBlock s.disk p = dirBlocks s.disk p := hr.ok.numBlocks_eq hr.le rfl
  have hkm : endBlock s.disk p < maxBlocks := by rw [hk]; unfold maxBlocks; omega
  unfold Room at hno
  rw [not_or, not_not, not_le] at hno
  rcases attach_short hp hs h hkm hno.1 hno.2 dm with
    ⟨-, ht, t, x, e, hS⟩ | ⟨d, t, e, -, hG, -, -, hm⟩
  · rw [e]
    exact hr.putStale ht hS
  · rw [e]
    show SameDir p s.disk d
    have hpd : imap d p = true := (hG.imap p).trans hp
    exact ⟨hG.imap p, hm.type, hm.size, fun l hl => hG.inv.pathOk hpd (by unfold maxBlocks; omega),
      fun l hl => hG.pblk_ne p l hp (by omega),
      fun l hl => hG.fileBlock_eq h hp (Or.inl (by omega))⟩

end Short

end RiscvKernel.Fs
