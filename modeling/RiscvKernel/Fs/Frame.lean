import RiscvKernel.Fs.Growth

/-!
# What a step leaves alone

`fileBlock d n l` are the bytes that logical block `l` of inode `n` reads as; a hole reads as the
sentinel. `Only n d d'` says that everything but inode `n` is the same in `d'`: the other inodes,
their block pointers and their contents. Growth, writing a data block and writing back an inode are
such steps, and so is their composition.
-/

namespace RiscvKernel.Fs

open Lib Lib.Forest

/-- The contents of logical block `l` of inode `n`. -/
def fileBlock (d : Mem) (n l : ℕ) : Mem := block d (pblk d n l)

/-- Byte `o` of inode `n`. -/
def fileByte (d : Mem) (n o : ℕ) : Byte := fileBlock d n (o / 4096) (o % 4096)

/-- Nothing but inode `n` changes. -/
structure Only (n : ℕ) (d d' : Mem) : Prop where
  inv : BlkInv d'
  sb : SbOn d → SbOn d'
  imap : ∀ m, imap d' m = imap d m
  inode_ne : ∀ m ≠ n, inode d' m = inode d m
  pblk_ne : ∀ m ≠ n, Fs.imap d m = true → ∀ l, pblk d' m l = pblk d m l
  block_ne : ∀ m ≠ n, Fs.imap d m = true → ∀ l, fileBlock d' m l = fileBlock d m l

section Only

variable {n : ℕ} {d d' d'' : Mem}

theorem Only.refl (h : BlkInv d) : Only n d d :=
  ⟨h, id, fun _ => rfl, fun _ _ => rfl, fun _ _ _ _ => rfl, fun _ _ _ _ => rfl⟩

theorem Only.trans (h : Only n d d') (h' : Only n d' d'') : Only n d d'' where
  inv := h'.inv
  sb := h'.sb ∘ h.sb
  imap m := (h'.imap m).trans (h.imap m)
  inode_ne m hm := (h'.inode_ne m hm).trans (h.inode_ne m hm)
  pblk_ne m hm hi l := (h'.pblk_ne m hm ((h.imap m).trans hi) l).trans (h.pblk_ne m hm hi l)
  block_ne m hm hi l := (h'.block_ne m hm ((h.imap m).trans hi) l).trans (h.block_ne m hm hi l)

/-- A hole reads as zeros. -/
theorem fileBlock_of_zero (h : BlkInv d) {l : ℕ} (h0 : pblk d n l = 0) :
    fileBlock d n l = fun _ => 0#8 := by
  unfold fileBlock
  rw [h0, h.zero]

/-- The contents of a logical block that is in place in both disks. -/
theorem Grow.fileBlock_eq {l : ℕ} (h0 : BlkInv d) (h : Grow n l d d') {m k : ℕ}
    (hm : Fs.imap d m = true) (hk : ¬ (m = n ∧ k = l) ∨ pblk d m k ≠ 0) :
    fileBlock d' m k = fileBlock d m k := by
  by_cases hz : pblk d m k = 0
  · have e := h.pblk_ne m k hm (hk.resolve_right (not_not_intro hz))
    rw [fileBlock_of_zero h0 hz, fileBlock_of_zero h.inv (e.trans hz)]
  · unfold fileBlock
    rw [h.pblk_eq hm hz, h.data m k hm hz]

theorem Grow.only {l : ℕ} (h0 : BlkInv d) (h : Grow n l d d') : Only n d d' where
  inv := h.inv
  sb := h.sb
  imap := h.imap
  inode_ne := h.inode_ne
  pblk_ne m hm hi k := h.pblk_ne m k hi fun e => hm e.1
  block_ne m hm hi k := h.fileBlock_eq h0 hi (Or.inl fun e => hm e.1)

end Only

/-! ## Data blocks -/

section Data

variable {d : Mem} (h : BlkInv d) {n l : ℕ} (hn : imap d n = true) (h0 : pblk d n l ≠ 0)
  (t : Mem) (o : ℕ)

include h hn h0

/-- A data block is not an index block. -/
theorem ref_ne_pblk {r : ℕ × ℕ} {k : ℕ} {ks : List ℕ} (hp : Shape d r (k :: ks)) :
    ref (cells d) r ks ≠ pblk d n l := by
  intro e
  have hl : l < maxBlocks := by
    by_contra hl
    exact h0 (pblk_of_ge d n (by omega))
  obtain ⟨e1, e2⟩ := h.owned.inj (blockPath_shape hn hl) (shape_closed d _ _ _ hp) e.symm h0
  have h3 := hp.2.2.1
  rw [← e1, ← e2, List.length_cons, blockPath_length] at h3
  simp only at h3
  omega

theorem ref_putData (r : ℕ × ℕ) (ks : List ℕ) (hp : Shape d r ks) :
    ref (cells (putBlock d (pblk d n l) t o)) r ks = ref (cells d) r ks := by
  refine ref_congr (shape_closed d) (fun _ => ?_) (fun k ks hs _ => ?_) ks hp
  · show (inode _ _).ptr _ = (inode _ _).ptr _
    rw [inode_putBlock]
  · exact idx_congr (block_putBlock_of_ne _ _ _ (ref_ne_pblk h hn h0 hs)) k

theorem pblk_putData {m : ℕ} (hm : imap d m = true) (k : ℕ) :
    pblk (putBlock d (pblk d n l) t o) m k = pblk d m k := by
  by_cases hk : k < maxBlocks
  · exact ref_putData h hn h0 t o _ _ (blockPath_shape hm hk)
  · rw [pblk_of_ge _ _ (by omega), pblk_of_ge _ _ (by omega)]

theorem inv_putData : BlkInv (putBlock d (pblk d n l) t o) where
  owned := by
    have hS : Shape (putBlock d (pblk d n l) t o) = Shape d :=
      shape_congr fun m => imap_putBlock d t o _ m
    rw [hS]
    exact h.owned.congr_shape (fun x => by rw [bmap_putBlock]) (fun _ _ hs => hs)
      (ref_putData h hn h0 t o) (fun _ _ hs => Or.inl hs)
  zero := by rw [block_putBlock_of_ne _ _ _ h0.symm, h.zero]

theorem fileBlock_putData {m k : ℕ} (hm : imap d m = true) (hk : ¬ (m = n ∧ k = l)) :
    fileBlock (putBlock d (pblk d n l) t o) m k = fileBlock d m k := by
  unfold fileBlock
  rw [pblk_putData h hn h0 t o hm, block_putBlock_of_ne]
  intro e
  obtain ⟨e1, e2⟩ := h.pblk_inj hn hm h0 e.symm
  exact hk ⟨e1.symm, e2.symm⟩

theorem fileBlock_putData_self {i : ℕ} (hi : i < 4096) :
    fileBlock (putBlock d (pblk d n l) t o) n l i = t (o + i) := by
  unfold fileBlock
  rw [pblk_putData h hn h0 t o hn, block_putBlock_self _ _ _ _ hi]

/-- Writing a data block of `n` changes nothing else. -/
theorem only_putData : Only n d (putBlock d (pblk d n l) t o) where
  inv := inv_putData h hn h0 t o
  sb hs := hs.putBlock _ _ _
  imap m := imap_putBlock d t o _ m
  inode_ne m _ := inode_putBlock d t o _ m
  pblk_ne m _ hm k := pblk_putData h hn h0 t o hm k
  block_ne m hm hi k := fileBlock_putData h hn h0 t o hi fun e => hm e.1

end Data

/-! ## Writing back an inode -/

section Meta

variable {d : Mem} (h : BlkInv d) {n : ℕ} (hn : imap d n = true) {x : Inode}
  (hx : x.ptr = (inode d n).ptr)

include hn hx

theorem ref_putMeta (r : ℕ × ℕ) (ks : List ℕ) (hp : Shape d r ks) :
    ref (cells (putInode d n x)) r ks = ref (cells d) r ks := by
  refine ref_congr (shape_closed d) (fun _ => ?_) (fun k ks hs _ => ?_) ks hp
  · show (inode (putInode d n x) r.1).ptr _ = (inode d r.1).ptr _
    by_cases e : r.1 = n
    · rw [e, inode_putInode_self _ _ (imap_lt hn), hx]
    · rw [inode_putInode_of_ne _ _ e]
  · exact idx_congr (block_putInode _ _ (imap_lt hn) _) k

theorem pblk_putMeta {m : ℕ} (hm : imap d m = true) (k : ℕ) :
    pblk (putInode d n x) m k = pblk d m k := by
  by_cases hk : k < maxBlocks
  · exact ref_putMeta hn hx _ _ (blockPath_shape hm hk)
  · rw [pblk_of_ge _ _ (by omega), pblk_of_ge _ _ (by omega)]

theorem fileBlock_putMeta {m : ℕ} (hm : imap d m = true) (k : ℕ) :
    fileBlock (putInode d n x) m k = fileBlock d m k := by
  unfold fileBlock
  rw [pblk_putMeta hn hx hm, block_putInode _ _ (imap_lt hn)]

include h

/-- Writing back an inode with the block pointers it has on the disk changes nothing else. -/
theorem only_putMeta : Only n d (putInode d n x) where
  inv :=
    { owned := by
        have hS : Shape (putInode d n x) = Shape d := shape_congr fun m => imap_putInode d _ n x
        rw [hS]
        exact h.owned.congr_shape (fun c => by rw [bmap_putInode]) (fun _ _ hs => hs)
          (ref_putMeta hn hx) (fun _ _ hs => Or.inl hs)
      zero := by rw [block_putInode _ _ (imap_lt hn), h.zero] }
  sb hs := hs.putInode _ _
  imap m := imap_putInode d _ n x
  inode_ne m hm := inode_putInode_of_ne _ _ hm
  pblk_ne m _ hm k := pblk_putMeta hn hx hm k
  block_ne m _ hm k := fileBlock_putMeta hn hx hm k

end Meta

/-! ## A new inode -/

/-- A fresh inode without blocks is marked and written. -/
theorem newInode_spec {d d' : Mem} (h : BlkInv d) {n : ℕ} (hn : imap d n = false)
    (hm : ∀ m, imap d' m = (decide (m = n) || imap d m)) (hu : ∀ c, bmap d' c = bmap d c)
    (hne : ∀ m ≠ n, inode d' m = inode d m) (hz : ∀ i, (inode d' n).ptr i = 0)
    (hb : ∀ c, block d' c = block d c) :
    BlkInv d' ∧ (∀ m, imap d m = true → ∀ l, pblk d' m l = pblk d m l) ∧
      (∀ l, pblk d' n l = 0) := by
  have hn0 : ∀ i ks, ref (cells d') (n, i) ks = 0 := fun i => ref_of_root (hz i)
  have hr : ∀ r ks, Shape d r ks → ref (cells d') r ks = ref (cells d) r ks := by
    intro r ks hp
    refine ref_congr (shape_closed d) (fun hp => ?_) (fun k ks _ _ => idx_congr (hb _) k) ks hp
    show (inode d' r.1).ptr _ = (inode d r.1).ptr _
    rw [hne]
    rintro rfl
    rw [hp.1] at hn
    cases hn
  refine ⟨⟨h.owned.congr_shape (fun c => by rw [hu]) ?_ hr ?_, by rw [hb, h.zero]⟩, ?_,
    fun l => hn0 _ _⟩
  · rintro r ks ⟨h1, h2⟩
    exact ⟨by rw [hm, h1, Bool.or_true], h2⟩
  · rintro ⟨m, i⟩ ks ⟨h1, h2⟩
    by_cases e : m = n
    · exact Or.inr (e ▸ hn0 i ks)
    · rw [hm] at h1
      simp only [e, decide_false, Bool.false_or] at h1
      exact Or.inl ⟨h1, h2⟩
  · intro m hmm l
    by_cases hl : l < maxBlocks
    · exact hr _ _ (blockPath_shape hmm hl)
    · rw [pblk_of_ge _ _ (by omega), pblk_of_ge _ _ (by omega)]

end RiscvKernel.Fs
