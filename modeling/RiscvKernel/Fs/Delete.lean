import RiscvKernel.Fs.Free

/-!
# Removing names

`do_rm` and `do_rmdir` on a well-formed state. Each of them either leaves the disk as it is, or its
effect on the name space is one of the operations `removeRef` and `removeDir` of `Lib.NameTree`,
provided that the walk over the blocks of a file with one link comes down to its blocks (`RmExact`)
and that a removed directory is named by its parent's entry and has no index blocks.
-/

namespace RiscvKernel.Fs

open Lib Lib.Forest

/-! ## Dropping an inode -/

/-- Unmarking an inode together with its blocks. -/
theorem blkInv_drop {d : Mem} (d' : Mem) (h : BlkInv d) {f : ℕ}
    (hm : ∀ m, imap d' m = true ↔ imap d m = true ∧ m ≠ f)
    (hb : ∀ c, bmap d' c = true ↔ bmap d c = true ∧ ¬ blocksOf d f c)
    (hi : ∀ m, (inode d' m).ptr = (inode d m).ptr) (hblk : ∀ c, block d' c = block d c) :
    BlkInv d' ∧ (∀ m l, pblk d' m l = pblk d m l) ∧ ∀ m l, fileBlock d' m l = fileBlock d m l := by
  have hc : cells d' = cells d := by
    unfold cells
    congr 1
    · funext r
      rw [hi]
    · funext b k
      exact idx_congr (hblk b) k
  have hp : ∀ m l, pblk d' m l = pblk d m l := fun m l => by
    unfold pblk
    rw [hc]
  refine ⟨⟨?_, by rw [hblk, h.zero]⟩, hp, fun m l => by unfold fileBlock; rw [hp, hblk]⟩
  rw [hc]
  refine h.owned.drop (fun r ks hs => ⟨((hm _).mp hs.1).1, hs.2⟩) (fun _ _ _ => rfl) fun c => ?_
  rw [hb]
  refine and_congr_right fun _ => not_congr (and_congr_right fun _ => ?_)
  constructor
  · rintro ⟨i, ks, hs, e⟩
    exact ⟨(f, i), ks, hs, fun hs' => ((hm f).mp hs'.1).2 rfl, e⟩
  · rintro ⟨⟨m, i⟩, ks, hs, hn, e⟩
    obtain rfl : m = f := by
      by_contra hmf
      exact hn ⟨(hm m).mpr ⟨hs.1, hmf⟩, hs.2⟩
    exact ⟨i, ks, hs, e⟩

theorem imap_clear_iff (d : Mem) (f m : ℕ) :
    imap (clearBit d imapBase f) m = true ↔ imap d m = true ∧ m ≠ f := by
  rw [imap_clearBit]
  simp [and_comm]

/-! ## `do_rm` -/

/-- A disk whose name space is the old one without one reference to a file. -/
theorem wf_removeRef {d d' : Mem} (h : Wf d) {σ : Slot} {x : CStr} {f : ℕ}
    (hσ : ent d σ = some (x, f)) (hf : ¬ isDir d f) (hb : BlkInv d') (hsb : SbOn d')
    (hm : ∀ m, imap d' m = true ↔ imap d m = true ∧ (m = f → (inode d f).nlinks ≠ 1))
    (hty : ∀ m, (inode d' m).type = (inode d m).type)
    (hlk : ∀ m, (inode d' m).nlinks = if m = f ∧ (inode d f).nlinks ≠ 1 then
      (inode d f).nlinks - 1 else (inode d m).nlinks)
    (hent : ent d' = Function.update (ent d) σ none)
    (hdirs : ∀ q, imap d q = true → isDir d q → DirOk d' q)
    (hsize : ∀ m, (inode d' m).size = (inode d m).size ∨ isDir d m) :
    nameTree d' = (nameTree d).removeRef σ f ∧ Wf d' := by
  have htree : nameTree d' = (nameTree d).removeRef σ f := by
    apply NameTree.ext
    · funext m
      exact propext (hm m)
    · funext m
      show isDir d' m = isDir d m
      unfold isDir
      rw [hty]
    · funext m
      show (inode d' m).nlinks = (if (inode d f).nlinks = 1 then fun n => (inode d n).nlinks else
        Function.update (fun n => (inode d n).nlinks) f ((inode d f).nlinks - 1)) m
      rw [hlk]
      by_cases h1 : (inode d f).nlinks = 1
      · rw [if_pos h1, if_neg fun hc => hc.2 h1]
      · rw [if_neg h1, Function.update_apply]
        exact if_congr ⟨fun hc => hc.1, fun hc => ⟨hc, h1⟩⟩ rfl rfl
    · exact hent
  refine ⟨htree, hsb, hb, fun q hq hqd => ?_, fun m hmm hd => ?_, ?_⟩
  · unfold isDir at hqd
    rw [hty] at hqd
    exact hdirs q ((hm q).mp hq).1 hqd
  · unfold isDir at hd
    rw [hty] at hd
    rw [(hsize m).resolve_right hd]
    exact h.sizes m ((hm m).mp hmm).1 hd
  · rw [htree]
    exact h.tree.removeRef hσ hf

/-- What `do_rm` does to a well-formed disk when it succeeds. -/
structure RemovedRef (d d' : Mem) (f : ℕ) : Prop where
  wf : Wf d'
  tree : ∃ σ x, ent d σ = some (x, f) ∧ nameTree d' = (nameTree d).removeRef σ f
  imap : ∀ m, imap d' m = true ↔ Fs.imap d m = true ∧ (m = f → (inode d f).nlinks ≠ 1)
  files : ∀ m, Fs.imap d m = true → ¬ isDir d m → SameFile m d d'

/-- What `do_rm` of the last link should do: the file's blocks and its inode are unmarked, the first
byte of the entry in slot `σ` is cleared, and nothing else changes. -/
structure Removed (d : Mem) (f : ℕ) (σ : Slot) (d' : Mem) : Prop where
  bmap : ∀ c, bmap d' c = true ↔ Fs.bmap d c = true ∧ ¬ blocksOf d f c
  imap : ∀ m, imap d' m = true ↔ Fs.imap d m = true ∧ m ≠ f
  inode : ∀ m, inode d' m = inode d m
  block : ∀ c ≠ pblk d σ.1 σ.2.1, block d' c = block d c
  slot : ∀ i < 4096, Fs.block d' (pblk d σ.1 σ.2.1) i =
    if i = 20 * σ.2.2 then 0#8 else Fs.block d (pblk d σ.1 σ.2.1) i
  ent : ∀ τ, ent d' τ = if τ = σ then none else Fs.ent d τ

section Rm

variable {s : State} (h : WfState s) {path : CStr} (h0 : 0#8 ∉ path)

include h h0

/-- The course of `do_rm`: -1 and nothing happens, or the entry for a file is removed and its link
count goes down, or it is removed and the file with it. -/
theorem doRm_cases :
    ((∃ t, doRm s path = (-1, s.put s.disk t)) ∧
      ∀ σ f, σ.1 = (splitParent s path).1 → ent s.disk σ = some (lastName path, f) →
        isDir s.disk f) ∨
    (∃ f σ t node, σ.1 = (splitParent s path).1 ∧ ent s.disk σ = some (lastName path, f) ∧
      ¬ isDir s.disk f ∧ Unlinked σ.1 σ s.disk (unlinkSlot s.disk σ) ∧
      node = (inode s.disk f).setNlinks ((inode s.disk f).nlinks - 1) ∧
      doRm s path = if (inode s.disk f).nlinks = 1 then
          (0, freeInode (freeBlocks (s.put (unlinkSlot s.disk σ) t) node) f)
        else (0, s.put (putInode (unlinkSlot s.disk σ) f node) t)) := by
  obtain ⟨p, x, t, e1, hp1, hx0, -⟩ := h.splitParent h0
  have hxn := splitParent_name s path
  rw [e1] at hxn ⊢
  simp only at hxn ⊢
  subst hxn
  unfold doRm
  simp only [e1]
  by_cases hpn : p = neg1
  · rw [if_pos hpn]
    refine Or.inl ⟨⟨t, rfl⟩, fun σ f hσ e => ?_⟩
    exact absurd (hσ.trans hpn) (live_ne_neg1 (ent_some e).1)
  rw [if_neg hpn]
  have hpm := hp1.resolve_left hpn
  rcases (h.put_temp t).findInodeByName hpm hx0 with ⟨τ, f, t2, hτ, hf, e2⟩ | ⟨hno, t2, e2⟩
  swap
  · simp only [e2, if_true]
    exact Or.inl ⟨⟨t2, rfl⟩, fun σ f hσ e => absurd e (hno σ f hσ)⟩
  simp only [State.put_disk, State.put_put] at e2 hf
  have hfm : imap s.disk f = true := h.wf.tree.target_live hf
  have hf' := imap_lt hfm
  have hp' := imap_lt hpm
  simp only [e2, if_neg (live_ne_neg1 hfm), getInode_eq _ hf', getInode_eq _ hp', State.put_disk]
  by_cases hfd : (inode s.disk f).type = fdDir
  · rw [if_pos hfd]
    refine Or.inl ⟨⟨t2, rfl⟩, fun σ g hσ e => ?_⟩
    obtain rfl := h.wf.tree.distinct e hf (hσ.trans hτ.symm)
    rw [hf] at e
    cases e
    exact hfd
  rw [if_neg hfd]
  have hpd : isDir s.disk p := by
    have := (h.wf.tree.owner_dir hf).2
    rwa [show naming.owner τ = p from hτ] at this
  obtain ⟨σ, m, t3, hσ, e3, hU⟩ := removeDentry_spec (s := s.put s.disk t2) h.wf.blk hpm hpd
    (h.wf.dirs p hpm hpd) hx0 (inode s.disk p) rfl rfl hτ hf
  simp only [State.put_disk, State.put_put] at hσ e3 hU
  -- names are distinct, so the removed entry is the one that was found
  have hστ : σ = τ := h.wf.tree.distinct hσ hf (hU.owner.trans hτ.symm)
  subst hστ
  obtain rfl : m = f := by
    rw [hf] at hσ
    cases hσ
    rfl
  have hpos : 0 < (inode s.disk m).nlinks := by
    have e : (inode s.disk m).nlinks = _ := h.wf.tree.file_links hfm hfd
    rw [e, Set.ncard_pos (h.wf.tree.refs_finite m)]
    exact ⟨σ, _, hσ⟩
  have hu : u32 ((inode s.disk m).nlinks + neg1) = (inode s.disk m).nlinks - 1 := by
    have := h.wf.links_lt hfm
    simp only [u32, neg1]
    omega
  have hu2 : u32 ((inode s.disk m).nlinks - 1) = (inode s.disk m).nlinks - 1 :=
    u32_of_lt (by have := h.wf.links_lt hfm; omega)
  refine Or.inr ⟨m, σ, t3, _, hU.owner, hσ, hfd, by rwa [hU.owner], rfl, ?_⟩
  simp only [e3, hu, Inode.nlinks_setNlinks, hu2]
  by_cases h1 : (inode s.disk m).nlinks = 1
  · rw [if_pos h1, if_pos (by omega)]
  · rw [if_neg h1, if_neg (by omega), writeInode_eq _ hf']
    rfl

end Rm

section Unlinked

variable {d : Mem} (h : Wf d) {σ : Slot} {x : CStr} {f : ℕ} (hσ : ent d σ = some (x, f))
  (hf : ¬ isDir d f) (hU : Unlinked σ.1 σ d (unlinkSlot d σ))

include h hσ in
/-- A removed entry in the terms of the disk. -/
theorem unlinkSlot_observe :
    (∀ m, imap (unlinkSlot d σ) m = imap d m) ∧ (∀ c, bmap (unlinkSlot d σ) c = bmap d c) ∧
    (∀ m, inode (unlinkSlot d σ) m = inode d m) ∧
    (∀ c ≠ pblk d σ.1 σ.2.1, block (unlinkSlot d σ) c = block d c) ∧
    ∀ i < 4096, block (unlinkSlot d σ) (pblk d σ.1 σ.2.1) i =
      if i = 20 * σ.2.2 then 0#8 else block d (pblk d σ.1 σ.2.1) i := by
  obtain ⟨p, l, j⟩ := σ
  exact observe_unlinkSlot (ent_some hσ).2.2.2

include h hσ hf

/-- The file is not the directory it is in. -/
theorem owner_ne_file : f ≠ σ.1 := by
  rintro rfl
  exact hf (h.tree.owner_dir hσ).2

include hU

theorem unlinked_dirOk {q : ℕ} (hq : imap d q = true) (hqd : isDir d q) :
    DirOk (unlinkSlot d σ) q := by
  by_cases e : q = σ.1
  · rw [e]
    exact hU.ok
  · exact hU.only.dirOk_ne e hq (h.dirs q hq hqd)

theorem removedRef_more (hl : (inode d f).nlinks ≠ 1) :
    RemovedRef d (putInode (unlinkSlot d σ) f
      ((inode d f).setNlinks ((inode d f).nlinks - 1))) f := by
  obtain ⟨o1, o2, o3, o4, -⟩ := unlinkSlot_observe h hσ
  have hfm : imap d f = true := h.tree.target_live hσ
  have hf' := imap_lt hfm
  have hfm1 : imap (unlinkSlot d σ) f = true := by rw [o1]; exact hfm
  have hpf := owner_ne_file h hσ hf
  have hx1 : ((inode d f).setNlinks ((inode d f).nlinks - 1)).ptr =
      (inode (unlinkSlot d σ) f).ptr := by rw [Inode.ptr_setNlinks, o3]
  have hO := only_putMeta hU.only.inv hfm1 hx1
  have hself := inode_putInode_self (unlinkSlot d σ)
    ((inode d f).setNlinks ((inode d f).nlinks - 1)) hf'
  have hent := ent_putMeta hfm1 hx1 (by rw [Inode.type_setNlinks, o3])
    (by rw [Inode.size_setNlinks, o3])
  have hpb := fun (m : ℕ) (hm : imap (unlinkSlot d σ) m = true) l => pblk_putMeta hfm1 hx1 hm l
  generalize hd' : putInode (unlinkSlot d σ) f
    ((inode d f).setNlinks ((inode d f).nlinks - 1)) = d' at *
  have hm : ∀ m, imap d' m = true ↔ imap d m = true ∧ (m = f → (inode d f).nlinks ≠ 1) := by
    intro m
    rw [hO.imap, o1]
    exact ⟨fun h1 => ⟨h1, fun _ => hl⟩, fun h1 => h1.1⟩
  have hi : ∀ m ≠ f, inode d' m = inode d m := fun m e => by rw [hO.inode_ne m e, o3]
  have hent' : ent d' = Function.update (ent d) σ none := by
    funext τ
    rw [hent, hU.ent]
  have hdirs : ∀ q, imap d q = true → isDir d q → DirOk d' q := by
    intro q hq hqd
    have hqf : q ≠ f := by
      rintro rfl
      exact hf hqd
    have hq1 : imap (unlinkSlot d σ) q = true := by rw [o1]; exact hq
    exact hO.dirOk_ne hqf hq1 (unlinked_dirOk h hσ hf hU hq hqd)
  obtain ⟨htree, hwf⟩ := wf_removeRef h hσ hf hO.inv (hO.sb (hU.only.sb h.sb)) hm
    (fun m => by
      by_cases e : m = f
      · rw [e, hself, Inode.type_setNlinks]
      · rw [hi m e])
    (fun m => by
      by_cases e : m = f
      · rw [e, hself, Inode.nlinks_setNlinks, if_pos ⟨rfl, hl⟩, u32_of_lt]
        have := h.links_lt hfm
        omega
      · rw [hi m e, if_neg fun hc => e hc.1])
    hent' hdirs
    (fun m => by
      by_cases e : m = f
      · rw [e, hself, Inode.size_setNlinks]
        exact Or.inl rfl
      · exact Or.inl (by rw [hi m e]))
  refine ⟨hwf, ⟨σ, x, hσ, htree⟩, hm, fun m hmm hmd => ?_⟩
  have hmp : m ≠ σ.1 := by
    rintro rfl
    exact hmd (h.tree.owner_dir hσ).2
  refine (hU.only.sameFile hmp hmm).trans ?_
  have hmm1 : imap (unlinkSlot d σ) m = true := by rw [o1]; exact hmm
  by_cases e : m = f
  · subst e
    have hb : ∀ l, fileBlock d' m l = fileBlock (unlinkSlot d σ) m l := fun l => by
      rw [← hd', fileBlock_putMeta hfm1 hx1 hmm1]
    exact ⟨by rw [hself, Inode.size_setNlinks, o3], by rw [hself, hx1], hpb m hmm1, hb⟩
  · exact hO.sameFile e hmm1

omit hf hU in
/-- The paths to the blocks of an inode do not go through a directory block. -/
theorem unlinked_blocksOf (c : ℕ) : blocksOf (unlinkSlot d σ) f c ↔ blocksOf d f c := by
  have hS : Shape (unlinkSlot d σ) = Shape d := shape_congr (unlinkSlot_observe h hσ).1
  obtain ⟨h1, h2, h3, h4⟩ := ent_some hσ
  obtain ⟨p, l, j⟩ := σ
  simp only at h1 h3 h4
  have e : unlinkSlot d (p, l, j) =
      putBlock d (pblk d p l) (Function.update (fileBlock d p l) (20 * j) 0#8) 0 :=
    (putBlock_unlink h4 fun _ _ => rfl).symm
  unfold blocksOf
  rw [hS]
  refine and_congr_right fun _ => exists_congr fun i => exists_congr fun ks =>
    and_congr_right fun hs => ?_
  rw [e, ref_putData h.blk h1 ((h.dirs p h1 h2).full l h3) _ 0 _ _ hs]

end Unlinked

/-! ## The last link -/

/-- A bit that was cleared shows in the maps, in the inode table or in a block. -/
theorem removed_no_harm {d d1 d2 : Mem} {own : ℕ → Prop}
    (hb : ∀ c, bmap d1 c = true → ¬ own c → bmap d2 c = true)
    (hi : ∀ m, inode d2 m = inode d1 m) (hblk : ∀ c, block d2 c = block d1 c) :
    ¬ Harm own d1 d2 := by
  rintro ⟨c, h1, h2, h3⟩
  have hbase := bases
  by_cases hc : c < 131072
  · have := hb c (by unfold bmap; rw [decide_eq_true hc, h1]; rfl) h2
    unfold bmap at this
    rw [h3, Bool.and_false] at this
    cases this
  · -- the byte of the bit is in the inode table or in a block
    have hbyte : d2 (bmapBase + c / 8) = d1 (bmapBase + c / 8) := by
      by_cases ha : bmapBase + c / 8 < blkBase
      · have := byte_of_inode (hi ((bmapBase + c / 8 - itabBase) / 64)) (by omega)
          (i := (bmapBase + c / 8 - itabBase) % 64) (by omega)
        rwa [show itabBase + 64 * ((bmapBase + c / 8 - itabBase) / 64) +
          (bmapBase + c / 8 - itabBase) % 64 = bmapBase + c / 8 by omega] at this
      · have := congrFun (hblk ((bmapBase + c / 8 - blkBase) / 4096))
          ((bmapBase + c / 8 - blkBase) % 4096)
        unfold block at this
        rw [if_pos (by omega), if_pos (by omega)] at this
        rwa [show blkBase + 4096 * ((bmapBase + c / 8 - blkBase) / 4096) +
          (bmapBase + c / 8 - blkBase) % 4096 = bmapBase + c / 8 by omega] at this
    rw [bit_congr hbyte, h1] at h3
    cases h3

section Last

variable {s : State} (h : WfState s) {σ : Slot} {x : CStr} {f : ℕ}
  (hσ : ent s.disk σ = some (x, f)) (hf : ¬ isDir s.disk f)
  (hU : Unlinked σ.1 σ s.disk (unlinkSlot s.disk σ)) (t : Mem) (node : Inode)
  (hptr : node.ptr = (inode s.disk f).ptr)

include h hσ hf hU hptr

/-- `do_rm` of the last link, from the removal of the blocks on, does what it should exactly when
the walk comes down to the blocks of the file. -/
theorem freeLast_iff (hfit : WalkFits (unlinkSlot s.disk σ) f) :
    ∃ d' t', freeInode (freeBlocks (s.put (unlinkSlot s.disk σ) t) node) f = s.put d' t' ∧
      SbOn d' ∧ (Removed s.disk f σ d' ↔ RmExact (unlinkSlot s.disk σ) f) := by
  obtain ⟨o1, o2, o3, o4, o5⟩ := unlinkSlot_observe h.wf hσ
  have hown := unlinked_blocksOf h.wf hσ
  have hfm : imap s.disk f = true := h.wf.tree.target_live hσ
  have hf' := imap_lt hfm
  have hs1 : SbOk (s.put (unlinkSlot s.disk σ) t) := h.sbOk.put (hU.only.sb h.wf.sb) t
  have hfm1 : imap (s.put (unlinkSlot s.disk σ) t).disk f = true := (o1 f).trans hfm
  have hptr1 : node.ptr = (inode (s.put (unlinkSlot s.disk σ) t).disk f).ptr := by
    rw [State.put_disk, o3, hptr]
  obtain ⟨d2, t2, e2, hsb2, hW⟩ := freeBlocks_spec hs1 hU.only.inv hfm1 hptr1 hfit
  simp only [State.put_disk, State.put_put] at e2 hW
  obtain ⟨c1, c2, c3⟩ := observe_clearImap d2 hf'
  refine ⟨clearBit d2 imapBase f, sbTemp d2 t2, ?_, c3 hsb2, fun hR => ?_, fun hx => ?_⟩
  · rw [e2, freeInode_put (h.sbOk.put hsb2 t2) hf']
    rfl
  · -- nothing but the blocks of the file was unmarked, so there was no harm
    have hblk : ∀ c, block d2 c = block (unlinkSlot s.disk σ) c := by
      intro c
      rw [← c2]
      by_cases e : c = pblk s.disk σ.1 σ.2.1
      · subst e
        funext i
        by_cases hi : i < 4096
        · rw [hR.slot i hi, o5 i hi]
        · unfold block
          rw [if_neg hi, if_neg hi]
      · rw [hR.block c e, o4 c e]
    have hno : ¬ Harm (blocksOf (unlinkSlot s.disk σ) f) (unlinkSlot s.disk σ) d2 := by
      refine removed_no_harm (d := s.disk) (fun c hc hn => ?_) (fun m => ?_) hblk
      · rw [← bmap_clearImap d2 hf', hR.bmap, ← o2, ← hown]
        exact ⟨hc, hn⟩
      · rw [← c1, hR.inode, o3]
    obtain ⟨hT, hC⟩ := hW.resolve_right fun h1 => hno h1.2
    refine ⟨hfit, hT, fun c hc => ?_⟩
    by_contra hn
    have hcm : bmap s.disk c = true := by
      obtain ⟨-, i, ks, hp, rfl⟩ := (hown c).mp hc
      exact h.wf.blk.owned.used_ref hp
    have hc' : bmap (clearBit d2 imapBase f) c = true := by
      rw [bmap_clearImap d2 hf']
      have h1 : bmap (unlinkSlot s.disk σ) c = true := by rw [o2, hcm]
      unfold bmap at h1 ⊢
      rw [Bool.and_eq_true] at h1 ⊢
      exact ⟨h1.1, (hC.bit c).mpr ⟨h1.2, hn⟩⟩
    exact ((hR.bmap c).mp hc').2 ((hown c).mp hc)
  · obtain ⟨d3, t3, e3, hF⟩ := freeBlocks_exact hs1 hU.only.inv hfm1 hptr1 hx
    simp only [State.put_disk, State.put_put] at e3 hF
    have hd : d3 = d2 := by
      have := e3.symm.trans e2
      exact congrArg State.disk this
    subst hd
    have hi : ∀ m, inode (clearBit d3 imapBase f) m = inode s.disk m := fun m => by
      rw [c1, hF.inode, o3]
    have hb : ∀ c, block (clearBit d3 imapBase f) c = block (unlinkSlot s.disk σ) c := fun c => by
      rw [c2, hF.block]
    have hm : ∀ m, imap (clearBit d3 imapBase f) m = true ↔ imap s.disk m = true ∧ m ≠ f :=
      fun m => by rw [imap_clear_iff, hF.imap, o1]
    have hc : ∀ c, bmap (clearBit d3 imapBase f) c = true ↔
        bmap s.disk c = true ∧ ¬ blocksOf s.disk f c := fun c => by
      rw [bmap_clearImap _ hf', hF.bmap, o2, hown]
    refine ⟨hc, hm, hi, fun c e => by rw [hb, o4 c e], fun i hi => by rw [hb, o5 i hi],
      fun τ => ?_⟩
    rw [← Function.update_apply (ent s.disk), ← hU.ent]
    by_cases e : τ.1 = f
    · have hno : ∀ d : Mem, ¬ isDir d f → ent d τ = none := fun d hd => by
        unfold ent
        rw [if_neg]
        rintro ⟨-, h2, -⟩
        rw [e] at h2
        exact hd h2
      rw [hno _ (by unfold isDir; rw [hi]; exact hf), hno _ (by unfold isDir; rw [o3]; exact hf)]
    · have hmm : imap (clearBit d3 imapBase f) τ.1 = imap (unlinkSlot s.disk σ) τ.1 := by
        rw [Bool.eq_iff_iff, hm, o1]
        exact and_iff_left e
      refine ent_congr hmm (by rw [hi, o3]) fun _ => ?_
      unfold fileBlock
      rw [hb]
      congr 1
      unfold pblk
      congr 1
      unfold cells
      congr 1
      · funext r
        rw [hi, o3]
      · funext b k
        exact idx_congr (hb b) k

end Last

/-- The file is gone, and the rest is as before. -/
theorem removedRef_last {d d' : Mem} (h : Wf d) {σ : Slot} {x : CStr} {f : ℕ}
    (hσ : ent d σ = some (x, f)) (hf : ¬ isDir d f) (hU : Unlinked σ.1 σ d (unlinkSlot d σ))
    (hl : (inode d f).nlinks = 1) (hsb : SbOn d') (hR : Removed d f σ d') :
    RemovedRef d d' f := by
  obtain ⟨o1, o2, o3, o4, o5⟩ := unlinkSlot_observe h hσ
  have hown := unlinked_blocksOf h hσ
  have hblk : ∀ c, block d' c = block (unlinkSlot d σ) c := by
    intro c
    by_cases e : c = pblk d σ.1 σ.2.1
    · subst e
      funext i
      by_cases hi : i < 4096
      · rw [hR.slot i hi, o5 i hi]
      · unfold block
        rw [if_neg hi, if_neg hi]
    · rw [hR.block c e, o4 c e]
  obtain ⟨hinv, hpb, hfb⟩ := blkInv_drop d' hU.only.inv (f := f)
    (fun m => by rw [hR.imap, o1]) (fun c => by rw [hR.bmap, o2, hown])
    (fun m => by rw [hR.inode, o3]) hblk
  have hm : ∀ m, imap d' m = true ↔ imap d m = true ∧ (m = f → (inode d f).nlinks ≠ 1) :=
    fun m => by
      rw [hR.imap]
      exact and_congr_right fun _ => ⟨fun h1 h2 => absurd h2 h1, fun h1 h2 => h1 h2 hl⟩
  have hent : ent d' = Function.update (ent d) σ none := by
    funext τ
    rw [hR.ent, Function.update_apply]
  have hdirs : ∀ q, imap d q = true → isDir d q → DirOk d' q := fun q hq hqd =>
    dirOk_congr (by rw [hR.inode, o3]) (hpb q) (fun τ _ => by rw [hent, hU.ent])
      (unlinked_dirOk h hσ hf hU hq hqd)
  obtain ⟨htree, hwf⟩ := wf_removeRef h hσ hf hinv hsb hm (fun m => by rw [hR.inode])
    (fun m => by rw [hR.inode, if_neg fun hc => hc.2 hl]) hent hdirs
    (fun m => Or.inl (by rw [hR.inode]))
  refine ⟨hwf, ⟨σ, x, hσ, htree⟩, hm, fun m hmm hmd => ?_⟩
  have hmp : m ≠ σ.1 := by
    rintro rfl
    exact hmd (h.tree.owner_dir hσ).2
  exact (hU.only.sameFile hmp hmm).trans
    ⟨by rw [hR.inode, o3], by rw [hR.inode, o3], hpb m, hfb m⟩

/-- The condition under which `do_rm` removes a file with one link correctly. -/
def RmSafe (s : State) (path : CStr) : Prop :=
  ∀ σ f, σ.1 = (splitParent s path).1 → ent s.disk σ = some (lastName path, f) →
    (inode s.disk f).nlinks = 1 → RmExact (unlinkSlot s.disk σ) f

/-- `do_rm`: -1 and nothing happens, or one reference to a file is gone. -/
theorem doRm_spec {s : State} (h : WfState s) {path : CStr} (h0 : 0#8 ∉ path)
    (hsafe : RmSafe s path) :
    (∃ t, doRm s path = (-1, s.put s.disk t)) ∨
    (∃ f σ d t, doRm s path = (0, s.put d t) ∧ σ.1 = (splitParent s path).1 ∧
      ent s.disk σ = some (lastName path, f) ∧ ¬ isDir s.disk f ∧ RemovedRef s.disk d f) := by
  rcases doRm_cases h h0 with h1 | ⟨f, σ, t, node, hp, hσ, hf, hU, rfl, e⟩
  · exact Or.inl h1.1
  refine Or.inr ⟨f, σ, ?_⟩
  by_cases hl : (inode s.disk f).nlinks = 1
  · rw [if_pos hl] at e
    have hx := hsafe σ f hp hσ hl
    obtain ⟨d', t', e', hsb, hiff⟩ := freeLast_iff h hσ hf hU t
      ((inode s.disk f).setNlinks ((inode s.disk f).nlinks - 1)) rfl hx.fits
    rw [e'] at e
    exact ⟨d', t', e, hp, hσ, hf,
      removedRef_last h.wf hσ hf hU hl hsb (hiff.mpr hx)⟩
  · rw [if_neg hl] at e
    exact ⟨_, t, e, hp, hσ, hf, removedRef_more h.wf hσ hf hU hl⟩

/-- The words of the superblock's sector that can replace an index entry are numbers of blocks whose
sectors have 32-bit numbers. -/
def SectorFits (d : Mem) : Prop := ∀ k < 128, 0 < k → Fits (sbWord d k)

theorem SectorFits.walkFits {d : Mem} (h : SectorFits d) (hb : BlkInv d) {f : ℕ}
    (hf : imap d f = true) : WalkFits d f := by
  intro h0 k hk
  unfold seen
  split_ifs with hc
  · obtain ⟨i, hi, -⟩ := hc.2
    exact h _ (by omega) (by omega)
  · have hp : Shape d (f, 11) [k] := ⟨hf, by simp, by simp, by simpa using hk⟩
    have := hb.ref_lt hp
    rw [ref_cons_of_ne (show ref (cells d) (f, 11) [] ≠ 0 from h0)] at this
    change idx d ((inode d f).ptr 11) k < 131072 at this
    unfold Fits
    omega

section LastLink

variable {s : State} (h : WfState s) {path : CStr} (h0 : 0#8 ∉ path) {σ : Slot} {f : ℕ}
  (hp : σ.1 = (splitParent s path).1) (hσ : ent s.disk σ = some (lastName path, f))
  (hf : ¬ isDir s.disk f) (hl : (inode s.disk f).nlinks = 1)

include h h0 hp hσ hf hl

theorem doRm_last : (doRm s path).1 = 0 ∧ (WalkFits (unlinkSlot s.disk σ) f →
    (Removed s.disk f σ (doRm s path).2.disk ↔ RmExact (unlinkSlot s.disk σ) f)) := by
  rcases doRm_cases h h0 with ⟨-, h1⟩ | ⟨g, τ, t, node, hp', hτ, -, hU, rfl, e⟩
  · exact absurd (h1 σ f hp hσ) hf
  -- the entry that `do_rm` finds is the one in slot `σ`
  obtain rfl := h.wf.tree.distinct hτ hσ (hp'.trans hp.symm)
  obtain rfl : g = f := by
    rw [hσ] at hτ
    cases hτ
    rfl
  rw [if_pos hl] at e
  rw [e]
  refine ⟨rfl, fun hfit => ?_⟩
  obtain ⟨d', t', e', -, hiff⟩ := freeLast_iff h hσ hf hU t
    ((inode s.disk g).setNlinks ((inode s.disk g).nlinks - 1)) rfl hfit
  rw [e']
  exact hiff

/-- Removing the last link of a file: `do_rm` returns 0, and it does what it should when the walk
over the index blocks comes down to the blocks of the file, and only then. -/
theorem doRm_last_link :
    (doRm s path).1 = 0 ∧
      (RmExact (unlinkSlot s.disk σ) f → Removed s.disk f σ (doRm s path).2.disk) ∧
      (SectorFits s.disk → Removed s.disk f σ (doRm s path).2.disk →
        RmExact (unlinkSlot s.disk σ) f) := by
  obtain ⟨hret, hiff⟩ := doRm_last h h0 hp hσ hf hl
  refine ⟨hret, fun hx => (hiff hx.fits).mpr hx, fun hfit => (hiff ?_).mp⟩
  obtain ⟨o1, -⟩ := unlinkSlot_observe h.wf hσ
  have hfm : imap (unlinkSlot s.disk σ) f = true := by
    rw [o1]
    exact h.wf.tree.target_live hσ
  have hfit1 : SectorFits (unlinkSlot s.disk σ) := fun k hk hpos => by
    have hw : sbWord (unlinkSlot s.disk σ) k = sbWord s.disk k := word_congr fun i hi =>
      Function.update_of_ne (by have := bases; omega) _ _
    rw [hw]
    exact hfit k hk hpos
  obtain ⟨p, l, j⟩ := σ
  obtain ⟨hpm, hpd, hlb, hj⟩ := ent_some hσ
  have hU := unlinked_unlinkSlot h.wf.blk hpm hpd (h.wf.dirs p hpm hpd) hlb hj
  exact hfit1.walkFits hU.only.inv hfm

end LastLink

end RiscvKernel.Fs
