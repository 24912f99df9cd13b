import RiscvKernel.Fs.Wf

/-!
# Creating names

`do_touch`, `do_mkdir` and `do_ln` on a well-formed state: each of them either leaves the disk as it
is, or its effect on the name space is one of the operations `addRef` and `addDir` of
`Lib.NameTree`. In both cases the disk stays well-formed and the files keep their data.
-/

namespace RiscvKernel.Fs

open Lib Lib.Forest

/-- The part of a path after its last slash. -/
def lastName (path : CStr) : CStr :=
  match strrchr slash path with
  | none => path
  | some k => path.drop (k + 1)

/-- A name that fits into a directory entry. -/
def NameOk (x : CStr) : Prop := 1 ≤ x.length ∧ x.length ≤ 15

instance (x : CStr) : Decidable (NameOk x) := by unfold NameOk; infer_instance

theorem splitParent_name (s : State) (path : CStr) : (splitParent s path).2.1 = lastName path := by
  unfold splitParent lastName
  cases strrchr slash path with
  | none => rfl
  | some k => rfl

/-! ## A new inode -/

/-- Inode `n` is marked and is `x`; nothing else changes. -/
structure Born (n : ℕ) (x : Inode) (d d' : Mem) : Prop where
  dead : imap d n = false
  inv : BlkInv d'
  sb : SbOn d → SbOn d'
  imap : ∀ m, imap d' m = (decide (m = n) || Fs.imap d m)
  self : inode d' n = x
  inode_ne : ∀ m ≠ n, inode d' m = inode d m
  pblk_ne : ∀ m, Fs.imap d m = true → ∀ l, pblk d' m l = pblk d m l
  block_ne : ∀ m, Fs.imap d m = true → ∀ l, fileBlock d' m l = fileBlock d m l

section Born

variable {n : ℕ} {x : Inode} {d d' : Mem} (h : Born n x d d')

include h

theorem Born.ne {m : ℕ} (hm : Fs.imap d m = true) : m ≠ n := by
  rintro rfl
  rw [h.dead] at hm
  cases hm

theorem Born.imap_old {m : ℕ} (hm : Fs.imap d m = true) : Fs.imap d' m = true := by
  rw [h.imap, hm, Bool.or_true]

theorem Born.sameFile {m : ℕ} (hm : Fs.imap d m = true) : SameFile m d d' :=
  ⟨by rw [h.inode_ne m (h.ne hm)], by rw [h.inode_ne m (h.ne hm)], h.pblk_ne m hm, h.block_ne m hm⟩

theorem Born.ent_ne {σ : Slot} (hσ : σ.1 ≠ n) : ent d' σ = ent d σ :=
  ent_congr (by rw [h.imap, decide_eq_false hσ, Bool.false_or]) (h.inode_ne _ hσ)
    fun hm => h.block_ne _ hm _

theorem Born.dirOk {p : ℕ} (hp : Fs.imap d p = true) (hd : DirOk d p) : DirOk d' p :=
  dirOk_congr (h.inode_ne p (h.ne hp)) (h.pblk_ne p hp)
    (fun _ hσ => h.ent_ne (by rw [hσ]; exact h.ne hp)) hd

end Born

theorem ent_of_unmarked {d : Mem} {σ : Slot} (h : imap d σ.1 = false) : ent d σ = none := by
  unfold ent
  rw [if_neg (by rw [h]; simp)]

/-- The inode `do_touch` creates. -/
theorem born_file {d : Mem} (h : BlkInv d) {n : ℕ} (hn : n < 4096) (hd : imap d n = false) :
    Born n newFileInode d (putInode (setBit d imapBase n) n newFileInode) ∧
      (∀ l, pblk (putInode (setBit d imapBase n) n newFileInode) n l = 0) := by
  obtain ⟨o1, o2, o3⟩ := observe_setImap d hn
  have hm : ∀ m, imap (putInode (setBit d imapBase n) n newFileInode) m =
      (decide (m = n) || imap d m) := fun m => by rw [imap_putInode, imap_setBit _ hn]
  have hb : ∀ c, block (putInode (setBit d imapBase n) n newFileInode) c = block d c := fun c => by
    rw [block_putInode _ _ hn, o2]
  have hne : ∀ m ≠ n, inode (putInode (setBit d imapBase n) n newFileInode) m = inode d m :=
    fun m e => by rw [inode_putInode_of_ne _ _ e, o1]
  have hself := inode_putInode_self (setBit d imapBase n) newFileInode hn
  obtain ⟨h1, h2, h3⟩ := newInode_spec h hd hm
    (fun c => by rw [bmap_putInode, bmap_setImap _ hn]) hne
    (fun i => by
      rw [hself]
      unfold Inode.ptr newFileInode
      split_ifs <;> rfl) hb
  refine ⟨⟨hd, h1, fun hs => (o3 hs).putInode _ _, hm, hself, hne, h2, fun m hmm l => ?_⟩, h3⟩
  unfold fileBlock
  rw [h2 m hmm, hb]

/-! ## Adding a file name -/

/-- A disk whose name space is the old one with one more reference to a file. -/
theorem wf_addRef {d d' : Mem} (h : Wf d) {σ : Slot} {x : CStr} {f k : ℕ} (hb : BlkInv d')
    (hsb : SbOn d') (hm : ∀ m, imap d' m = (decide (m = f) || imap d m))
    (hty : ∀ m ≠ f, (inode d' m).type = (inode d m).type)
    (hlk : ∀ m ≠ f, (inode d' m).nlinks = (inode d m).nlinks) (hft : ¬ isDir d' f)
    (hfk : (inode d' f).nlinks = k) (hent : ent d' = Function.update (ent d) σ (some (x, f)))
    (hroom : (nameTree d).Room naming σ x)
    (hf : (¬ imap d f = true ∧ k = 1) ∨
      (imap d f = true ∧ ¬ isDir d f ∧ k = (inode d f).nlinks + 1))
    (hdirs : ∀ p, imap d p = true → isDir d p → DirOk d' p)
    (hsizes : ∀ m, imap d m = true ∨ m = f → ¬ isDir d' m → (inode d' m).size < 2 ^ 31) :
    nameTree d' = (nameTree d).addRef σ x f k ∧ Wf d' := by
  have htree : nameTree d' = (nameTree d).addRef σ x f k := by
    apply NameTree.ext
    · funext m
      show (imap d' m = true) = (m = f ∨ imap d m = true)
      rw [hm]
      simp
    · funext m
      show isDir d' m = (m ≠ f ∧ isDir d m)
      by_cases e : m = f
      · subst e
        simp [hft]
      · unfold isDir
        rw [hty m e]
        simp [e]
    · funext m
      show (inode d' m).nlinks = Function.update (fun n => (inode d n).nlinks) f k m
      by_cases e : m = f
      · subst e
        rw [Function.update_self, hfk]
      · rw [Function.update_of_ne e, hlk m e]
    · exact hent
  refine ⟨htree, hsb, hb, fun p hp hd => ?_, fun m hmm hd => ?_, ?_⟩
  · have hpf : p ≠ f := by
      rintro rfl
      exact hft hd
    rw [hm, decide_eq_false hpf, Bool.false_or] at hp
    unfold isDir at hd
    rw [hty p hpf] at hd
    exact hdirs p hp hd
  · refine hsizes m ?_ hd
    rw [hm, Bool.or_eq_true, decide_eq_true_iff] at hmm
    exact hmm.symm
  · rw [htree]
    exact h.tree.addRef hroom hf

/-- The result of looking up a name that is not there: the slot found later is free, and no slot
has the name. -/
theorem room_of {d : Mem} {p : ℕ} (hp : imap d p = true) (hd : isDir d p) {x : CStr}
    (hno : ∀ σ m, σ.1 = p → ent d σ ≠ some (x, m)) {σ : Slot} (hσ : σ.1 = p)
    (hfree : ent d σ = none) : (nameTree d).Room naming σ x where
  free := hfree
  live := by
    show imap d σ.1 = true
    rwa [hσ]
  dir := by
    show isDir d σ.1
    rwa [hσ]
  name τ m hτ := hno τ m ((show τ.1 = σ.1 from hτ).trans hσ)

/-- What `do_touch` and `do_ln` do to a well-formed disk when they succeed. -/
structure AddedRef (d d' : Mem) (f k : ℕ) : Prop where
  wf : Wf d'
  tree : ∃ σ x, (nameTree d).Room naming σ x ∧ nameTree d' = (nameTree d).addRef σ x f k
  imap : ∀ m, imap d' m = (decide (m = f) || Fs.imap d m)
  files : ∀ m, Fs.imap d m = true → ¬ isDir d m → SameFile m d d'

section Touch

variable {s : State} (h : WfState s) {path : CStr} (h0 : 0#8 ∉ path) (hx : NameOk (lastName path))
  (hp : (splitParent s path).1 ≠ neg1 → isDir s.disk (splitParent s path).1)

include h h0 hx hp

/-- `do_touch`: -1 and nothing happens, or a new empty file. -/
theorem doTouch_spec (hf : (doTouch s path).2.allocFailed = false) :
    (∃ t, doTouch s path = (neg1, s.put s.disk t)) ∨
    (∃ n d t, doTouch s path = (n, s.put d t) ∧ imap s.disk n = false ∧ AddedRef s.disk d n 1 ∧
      inode d n = newFileInode ∧ ∀ l, pblk d n l = 0) := by
  obtain ⟨p, x, t, e1, hp1, hx0, hneg⟩ := h.splitParent h0
  have hxn := splitParent_name s path
  simp only [e1] at hp hxn
  subst hxn
  unfold doTouch at hf ⊢
  simp only [e1] at hf ⊢
  by_cases hpn : p = neg1
  · rw [if_pos ⟨hneg hpn, hpn⟩]
    exact Or.inl ⟨t, rfl⟩
  rw [if_neg (fun hc => hpn hc.2)] at hf ⊢
  have hpm := hp1.resolve_left hpn
  have hpd := hp hpn
  have hpok := h.wf.dirs p hpm hpd
  rcases (h.put_temp t).findInodeByName hpm hx0 with ⟨σ, m, t2, -, hm, e2⟩ | ⟨hno, t2, e2⟩
  · -- the name is taken
    simp only [State.put_disk, State.put_put] at e2 hm
    simp only [e2] at hf ⊢
    rw [if_pos (live_ne_neg1 (h.wf.tree.target_live hm))]
    exact Or.inl ⟨t2, rfl⟩
  simp only [State.put_disk, State.put_put] at e2 hno
  simp only [e2, ne_eq, not_true_eq_false, if_false] at hf ⊢
  have hp' := imap_lt hpm
  have hf1 : (allocInode (s.put s.disk t2)).2.allocFailed = false := by
    have := appendDentry_failed (show (appendDentry _ _ _ _).2.allocFailed = false from hf)
    rwa [writeInode_allocFailed] at this
  rcases allocInode_spec (h.put_temp t2).sbOk with ⟨n, hn, hnd, e3⟩ | ⟨-, e3⟩
  swap
  · rw [e3] at hf1
    cases hf1
  simp only [State.put_disk] at hnd
  obtain ⟨hB, hz⟩ := born_file h.wf.blk hn hnd
  simp only [e3, writeInode_eq _ hn, State.put_disk, State.put_temp, State.put_put,
    State.put_stack] at hf ⊢
  generalize hd1 : putInode (setBit s.disk imapBase n) n newFileInode = d1 at *
  have hpm1 := hB.imap_old hpm
  have hpi : inode d1 p = inode s.disk p := hB.inode_ne p (hB.ne hpm)
  have hpd1 : isDir d1 p := by unfold isDir; rw [hpi]; exact hpd
  have hpok1 := hB.dirOk hpm hpok
  have hgi := getInode_eq (s.put d1 t2) hp'
  simp only [State.put_disk] at hgi
  rw [hgi] at hf ⊢
  obtain ⟨d2, t3, node, σ, e4, ht4, hl4, hL⟩ := appendDentry_spec
    (h.sbOk.put (hB.sb h.wf.sb) t2) hB.inv hpm1 hpd1 hpok1
    (e := (lastName path, n)) (by have := hx.2; simp only; omega) (inode d1 p) rfl rfl rfl
    (dentryAt_mkDentry s.stack hx0 hx.1 (by have := hx.2; omega) (show n < 2 ^ 32 by omega)) hf
  simp only [e4, writeInode_eq _ hp', State.put_disk, State.put_temp, State.put_put]
  have hL := hL node rfl rfl rfl
  simp only [State.put_disk] at hL
  generalize hd2 : putInode d2 p node = d' at *
  have hpn' : p ≠ n := hB.ne hpm
  have hip : inode d' p = node := by rw [← hd2, inode_putInode_self _ _ hp']
  have hin : inode d' n = newFileInode := by rw [hL.only.inode_ne n hpn'.symm, hB.self]
  have hσn : σ.1 ≠ n := by rw [hL.owner]; exact hpn'
  have hmeta : ∀ m ≠ n, (inode d' m).type = (inode s.disk m).type ∧
      (inode d' m).nlinks = (inode s.disk m).nlinks := by
    intro m hm
    by_cases e : m = p
    · subst e
      rw [hip, ht4, hl4, hpi]
      exact ⟨rfl, rfl⟩
    · rw [hL.only.inode_ne m e, hB.inode_ne m hm]
      exact ⟨rfl, rfl⟩
  have hent1 : ent d1 = ent s.disk := by
    funext τ
    by_cases e : τ.1 = n
    · rw [ent_of_unmarked (d := s.disk) (by rw [e]; exact hnd)]
      unfold ent
      rw [if_neg]
      rintro ⟨-, h2, -⟩
      rw [e, hB.self] at h2
      cases h2
    · exact hB.ent_ne e
  have hfile : ∀ m, imap s.disk m = true → m ≠ p → SameFile m s.disk d' := fun m hm hmp =>
    (hB.sameFile hm).trans (hL.only.sameFile hmp (hB.imap_old hm))
  have hfree : ent s.disk σ = none := by
    rw [← hent1]
    exact hL.free
  have hmark : ∀ m, imap d' m = (decide (m = n) || imap s.disk m) := fun m => by
    rw [hL.only.imap, hB.imap]
  have hdirs : ∀ q, imap s.disk q = true → isDir s.disk q → DirOk d' q := by
    intro q hq hqd
    by_cases e : q = p
    · subst e
      exact hL.ok
    · exact hL.only.dirOk_ne e (hB.imap_old hq) (hB.dirOk hq (h.wf.dirs q hq hqd))
  have hsizes : ∀ m, imap s.disk m = true ∨ m = n → ¬ isDir d' m →
      (inode d' m).size < 2 ^ 31 := by
    intro m hm hmd
    by_cases e : m = n
    · rw [e, hin]
      show u32 0 < _
      rw [u32_of_lt (by norm_num)]
      norm_num
    · have hm' := hm.resolve_right e
      have hmd' : ¬ isDir s.disk m := by
        unfold isDir at hmd ⊢
        rwa [(hmeta m e).1] at hmd
      rw [(hfile m hm' (by rintro rfl; exact hmd' hpd)).size]
      exact h.wf.sizes m hm' hmd'
  have hroom := room_of hpm hpd hno hL.owner hfree
  obtain ⟨htree, hwf⟩ := wf_addRef h.wf hL.only.inv (hL.only.sb (hB.sb h.wf.sb)) hmark
    (fun m hm => (hmeta m hm).1) (fun m hm => (hmeta m hm).2)
    (by unfold isDir; rw [hin]; decide) (by rw [hin]; rfl) (by rw [hL.ent, hent1]) hroom
    (Or.inl ⟨by rw [hnd]; simp, rfl⟩) hdirs hsizes
  refine Or.inr ⟨n, d', t3, rfl, hnd, ⟨hwf, ⟨σ, _, hroom, htree⟩, hmark, fun m hm hmd =>
    hfile m hm ?_⟩, hin, fun l => ?_⟩
  · rintro rfl
    exact hmd hpd
  · rw [hL.only.pblk_ne n hpn'.symm (by rw [hB.imap]; simp), hz]

end Touch

section Ln

variable {s : State} (h : WfState s) {src dst : CStr} (h0 : 0#8 ∉ src) (h1 : 0#8 ∉ dst)
  (hx : NameOk (lastName dst))
  (hp : (splitParent (findInodeByPath s src).2 dst).1 ≠ neg1 →
    isDir s.disk (splitParent (findInodeByPath s src).2 dst).1)

include h h0 h1 hx hp

/-- `do_ln`: -1 and nothing happens, or a file has one more link. -/
theorem doLn_spec (hf : (doLn s src dst).2.allocFailed = false) :
    (∃ t, doLn s src dst = (-1, s.put s.disk t)) ∨
    (∃ f d t, doLn s src dst = (0, s.put d t) ∧ imap s.disk f = true ∧ ¬ isDir s.disk f ∧
      AddedRef s.disk d f ((inode s.disk f).nlinks + 1)) := by
  obtain ⟨f, t, e1, hf1⟩ := h.findInodeByPath h0
  unfold doLn at hf ⊢
  simp only [e1] at hf ⊢
  by_cases hfn : f = neg1
  · rw [if_pos hfn]
    exact Or.inl ⟨t, rfl⟩
  rw [if_neg hfn] at hf ⊢
  have hfm := hf1.resolve_left hfn
  have hf' := imap_lt hfm
  simp only [getInode_eq _ hf', State.put_disk] at hf ⊢
  by_cases hfd : (inode s.disk f).type = fdDir
  · rw [if_pos hfd]
    exact Or.inl ⟨t, rfl⟩
  rw [if_neg hfd] at hf ⊢
  have hfd' : ¬ isDir s.disk f := hfd
  obtain ⟨p, x, t1, e2, hp1, hx0, -⟩ := (h.put_temp t).splitParent h1
  have hxn := splitParent_name (s.put s.disk t) dst
  simp only [e1, e2] at hp hxn
  subst hxn
  simp only [State.put_disk, State.put_put] at e2 hp1
  simp only [e2] at hf ⊢
  by_cases hpn : p = neg1
  · rw [if_pos hpn]
    exact Or.inl ⟨t1, rfl⟩
  rw [if_neg hpn] at hf ⊢
  have hpm := hp1.resolve_left hpn
  have hpd := hp hpn
  have hpok := h.wf.dirs p hpm hpd
  rcases (h.put_temp t1).findInodeByName hpm hx0 with ⟨σ, m, t2, -, hm, e3⟩ | ⟨hno, t2, e3⟩
  · simp only [State.put_disk, State.put_put] at e3 hm
    simp only [e3] at hf ⊢
    rw [if_pos (live_ne_neg1 (h.wf.tree.target_live hm))]
    exact Or.inl ⟨t2, rfl⟩
  simp only [State.put_disk, State.put_put] at e3 hno
  have hp' := imap_lt hpm
  simp only [e3, ne_eq, not_true_eq_false, if_false, getInode_eq _ hp', State.put_disk,
    State.put_stack] at hf ⊢
  obtain ⟨d2, t3, node, σ, e4, ht4, hl4, hL⟩ := appendDentry_spec
    (h.put_temp t2).sbOk h.wf.blk hpm hpd hpok
    (e := (lastName dst, f)) (by have := hx.2; simp only; omega) (inode s.disk p)
    rfl rfl rfl
    (dentryAt_mkDentry s.stack hx0 hx.1 (by have := hx.2; omega) (show f < 2 ^ 32 by omega)) hf
  have hL := hL node rfl rfl rfl
  simp only [e4, writeInode_eq _ hp', writeInode_eq _ hf', State.put_disk, State.put_temp,
    State.put_put] at hL ⊢
  generalize hd2 : putInode d2 p node = d1 at *
  have hpf : f ≠ p := by
    rintro rfl
    exact hfd' hpd
  have hfm1 : imap d1 f = true := by rw [hL.only.imap]; exact hfm
  have hif : inode d1 f = inode s.disk f := hL.only.inode_ne f hpf
  have hip : inode d1 p = node := by rw [← hd2, inode_putInode_self _ _ hp']
  have hlink := h.wf.links_lt hfm
  have hO := only_putMeta hL.only.inv hfm1
    (x := (inode s.disk f).setNlinks ((inode s.disk f).nlinks + 1))
    (by rw [Inode.ptr_setNlinks, hif])
  have hself := inode_putInode_self d1
    ((inode s.disk f).setNlinks ((inode s.disk f).nlinks + 1)) hf'
  have hent := ent_putMeta hfm1
    (x := (inode s.disk f).setNlinks ((inode s.disk f).nlinks + 1))
    (by rw [Inode.ptr_setNlinks, hif]) (by rw [Inode.type_setNlinks, hif])
    (by rw [Inode.size_setNlinks, hif])
  have hpb := fun l => pblk_putMeta hfm1
    (x := (inode s.disk f).setNlinks ((inode s.disk f).nlinks + 1))
    (by rw [Inode.ptr_setNlinks, hif]) hfm1 l
  have hfb := fun l => fileBlock_putMeta hfm1
    (x := (inode s.disk f).setNlinks ((inode s.disk f).nlinks + 1))
    (by rw [Inode.ptr_setNlinks, hif]) hfm1 l
  generalize hd' : putInode d1 f ((inode s.disk f).setNlinks ((inode s.disk f).nlinks + 1)) = d'
    at *
  have hmeta : ∀ m ≠ f, (inode d' m).type = (inode s.disk m).type ∧
      (inode d' m).nlinks = (inode s.disk m).nlinks := by
    intro m hm
    rw [hO.inode_ne m hm]
    by_cases e : m = p
    · subst e
      rw [hip, ht4, hl4]
      exact ⟨rfl, rfl⟩
    · rw [hL.only.inode_ne m e]
      exact ⟨rfl, rfl⟩
  have hfile : ∀ m, imap s.disk m = true → m ≠ p → SameFile m s.disk d' := by
    intro m hm hmp
    refine (hL.only.sameFile hmp hm).trans ?_
    by_cases e : m = f
    · subst e
      exact ⟨by rw [hself, hif]; rfl, by rw [hself, hif]; rfl, hpb, hfb⟩
    · exact hO.sameFile e (by rw [hL.only.imap]; exact hm)
  have hmark : ∀ m, imap d' m = (decide (m = f) || imap s.disk m) := by
    intro m
    rw [hO.imap, hL.only.imap]
    by_cases e : m = f
    · rw [e]
      simp [hfm]
    · simp [e]
  have hroom := room_of hpm hpd hno hL.owner hL.free
  have hdirs : ∀ q, imap s.disk q = true → isDir s.disk q → DirOk d' q := by
    intro q hq hqd
    have hqf : q ≠ f := by
      rintro rfl
      exact hfd' hqd
    refine hO.dirOk_ne hqf (by rw [hL.only.imap]; exact hq) ?_
    by_cases e : q = p
    · subst e
      exact hL.ok
    · exact hL.only.dirOk_ne e hq (h.wf.dirs q hq hqd)
  have hsizes : ∀ m, imap s.disk m = true ∨ m = f → ¬ isDir d' m →
      (inode d' m).size < 2 ^ 31 := by
    intro m hm hmd
    have hm' : imap s.disk m = true := by
      rcases hm with hm | rfl
      · exact hm
      · exact hfm
    have hmd' : ¬ isDir s.disk m := by
      by_cases e : m = f
      · rwa [e]
      · unfold isDir at hmd ⊢
        rwa [(hmeta m e).1] at hmd
    rw [(hfile m hm' (by rintro rfl; exact hmd' hpd)).size]
    exact h.wf.sizes m hm' hmd'
  have hnl : (inode d' f).nlinks = (inode s.disk f).nlinks + 1 := by
    rw [hself, Inode.nlinks_setNlinks, u32_of_lt hlink]
  obtain ⟨htree, hwf⟩ := wf_addRef h.wf hO.inv (hO.sb (hL.only.sb h.wf.sb)) hmark
    (fun m hm => (hmeta m hm).1) (fun m hm => (hmeta m hm).2)
    (by unfold isDir; rw [hself, Inode.type_setNlinks]; exact hfd) hnl
    (by rw [← hL.ent]; funext τ; exact hent τ) hroom (Or.inr ⟨hfm, hfd', rfl⟩) hdirs hsizes
  refine Or.inr ⟨f, d', t3, rfl, hfm, hfd', hwf, ⟨σ, _, hroom, htree⟩, hmark, fun m hm hmd =>
    hfile m hm ?_⟩
  rintro rfl
  exact hmd hpd

end Ln

/-! ## A new directory -/

section Dots

variable (t : Mem) {a b : ℕ}

/-- The first block of a new directory: its two dots and nothing else. -/
theorem dentryAt_putDots_zero (ha : a < 2 ^ 32) :
    dentryAt (putDots (fill t 0 0#8 4096) a b) 0 = some (dot, a) := by
  have h1 : ∀ i < 16, putDots (fill t 0 0#8 4096) a b i = strcpy (fill t 0 0#8 4096) 0 dot i := by
    intro i hi
    unfold putDots putWord
    rw [putLe_out (by simp only [dentrySize, maxFnameLen]; omega),
      strcpy_out (by simp only [dentrySize]; omega),
      putLe_out (by simp only [maxFnameLen]; omega)]
  have hc : cstr (putDots (fill t 0 0#8 4096) a b) 0 16 = dot :=
    (cstr_congr fun i hi => h1 _ (by omega)).trans (cstr_strcpy (by decide) (by decide))
  have hw : word (putDots (fill t 0 0#8 4096) a b) (0 + 16) = a := by
    have hs : word (strcpy (putWord (strcpy (fill t 0 0#8 4096) 0 dot) 16 a) 20 dotdot) 16 =
        word (putWord (strcpy (fill t 0 0#8 4096) 0 dot) 16 a) 16 :=
      word_congr fun i hi => strcpy_out (by omega)
    rw [Nat.zero_add]
    unfold putDots
    rw [word_putWord_of_disjoint (by simp only [dentrySize, maxFnameLen]; omega), hs,
      word_putWord_self, Nat.mod_eq_of_lt ha]
  have h0 : putDots (fill t 0 0#8 4096) a b 0 ≠ 0#8 := by
    rw [h1 0 (by omega)]
    have := strcpy_in (m := fill t 0 0#8 4096) (a := 0) (s := dot) (Nat.zero_le _)
    rw [Nat.add_zero] at this
    rw [this]
    decide
  rw [dentryAt, if_neg h0, hc, hw]

theorem dentryAt_putDots_one (hb : b < 2 ^ 32) :
    dentryAt (putDots (fill t 0 0#8 4096) a b) 20 = some (dotdot, b) := by
  have h1 : ∀ i < 16, putDots (fill t 0 0#8 4096) a b (20 + i) =
      strcpy (putWord (strcpy (fill t 0 0#8 4096) 0 dot) 16 a) 20 dotdot (20 + i) := by
    intro i hi
    unfold putDots
    rw [putWord, putLe_out (by simp only [dentrySize, maxFnameLen]; omega)]
  have hc : cstr (putDots (fill t 0 0#8 4096) a b) 20 16 = dotdot :=
    (cstr_congr fun i hi => h1 _ (by omega)).trans (cstr_strcpy (by decide) (by decide))
  have hw : word (putDots (fill t 0 0#8 4096) a b) (20 + 16) = b := by
    unfold putDots
    rw [word_putWord_self, Nat.mod_eq_of_lt hb]
  have h0 : putDots (fill t 0 0#8 4096) a b 20 ≠ 0#8 := by
    have := h1 0 (by omega)
    rw [Nat.add_zero] at this
    rw [this]
    have := strcpy_in (m := putWord (strcpy (fill t 0 0#8 4096) 0 dot) 16 a) (a := 20)
      (s := dotdot) (Nat.zero_le _)
    rw [Nat.add_zero] at this
    rw [this]
    decide
  rw [dentryAt, if_neg h0, hc, hw]

theorem putDots_zero {i : ℕ} (h1 : 40 ≤ i) (h2 : i < 4096) :
    putDots (fill t 0 0#8 4096) a b i = 0#8 := by
  have hd : dot.length = 1 := rfl
  have hdd : dotdot.length = 2 := rfl
  unfold putDots putWord
  rw [putLe_out (by simp only [dentrySize, maxFnameLen]; omega),
    strcpy_out (by simp only [dentrySize, hdd]; omega),
    putLe_out (by simp only [maxFnameLen]; omega), strcpy_out (by rw [hd]; omega),
    fill_in (by omega) (by omega)]

end Dots

/-- The disk after `do_mkdir` has written the new inode and its block. -/
def newDirDisk (d : Mem) (n b : ℕ) (t : Mem) : Mem :=
  putBlock (putInode (setBit (setBit d imapBase n) bmapBase b) n (newDirInode b)) b t 0

theorem newDirDisk_eq (d : Mem) (n b : ℕ) (t : Mem) :
    putBlock (putInode (setBit (setBit d imapBase n) bmapBase b) n (newDirInode b)) b t 0 =
      newDirDisk d n b t := rfl

theorem ptr_newDirInode {b : ℕ} (hb : b < 131072) (i : ℕ) :
    (newDirInode b).ptr i = if i = 0 then b else 0 := by
  unfold newDirInode
  rw [Inode.ptr_setDirect _ (by omega), u32_of_lt (by omega)]
  split_ifs
  · rfl
  · unfold Inode.ptr
    split_ifs <;> rfl

theorem size_newDirInode (b : ℕ) : (newDirInode b).size = 4096 := by
  show u32 4096 = 4096
  exact u32_of_lt (by norm_num)

/-- The inode and the block `do_mkdir` creates. -/
theorem born_dir {d : Mem} (h : BlkInv d) {n b : ℕ} (hn : n < 4096) (hd : imap d n = false)
    (hb : b < 131072) (hfree : bmap d b = false) (t : Mem) :
    Born n (newDirInode b) d (newDirDisk d n b t) ∧
      (pblk (newDirDisk d n b t) n 0 ≠ 0) ∧
      ∀ i < 4096, fileBlock (newDirDisk d n b t) n 0 i = t i := by
  obtain ⟨i1, i2, i3⟩ := observe_setImap d hn
  obtain ⟨b1, b2, b3⟩ := observe_setBmap (setBit d imapBase n) hb
  -- first the inode without its block
  have hm : ∀ m, imap (putInode (setBit d imapBase n) n (newDirInode 0)) m =
      (decide (m = n) || imap d m) := fun m => by rw [imap_putInode, imap_setBit _ hn]
  have hbl : ∀ c, block (putInode (setBit d imapBase n) n (newDirInode 0)) c = block d c :=
    fun c => by rw [block_putInode _ _ hn, i2]
  have hne : ∀ m ≠ n, inode (putInode (setBit d imapBase n) n (newDirInode 0)) m = inode d m :=
    fun m e => by rw [inode_putInode_of_ne _ _ e, i1]
  have hself := inode_putInode_self (setBit d imapBase n) (newDirInode 0) hn
  obtain ⟨h1, h2, h3⟩ := newInode_spec h hd hm
    (fun c => by rw [bmap_putInode, bmap_setImap _ hn]) hne
    (fun i => by rw [hself, ptr_newDirInode (by omega)]; split_ifs <;> rfl) hbl
  -- then its block, as a filled cell
  have hm' : ∀ m, imap (newDirDisk d n b t) m = (decide (m = n) || imap d m) := fun m => by
    unfold newDirDisk
    rw [imap_putBlock, imap_putInode, imap_setBmap _ hb, imap_setBit _ hn]
  have hne' : ∀ m ≠ n, inode (newDirDisk d n b t) m = inode d m := fun m e => by
    unfold newDirDisk
    rw [inode_putBlock, inode_putInode_of_ne _ _ e, b1, i1]
  have hself' : inode (newDirDisk d n b t) n = newDirInode b := by
    unfold newDirDisk
    rw [inode_putBlock, inode_putInode_self _ _ hn]
  obtain ⟨hF, hF'⟩ : Fill (n, 0) [] (putInode (setBit d imapBase n) n (newDirInode 0))
      (newDirDisk d n b t) ∧ ref (cells (newDirDisk d n b t)) (n, 0) [] = b := by
    refine Fill.root h1 ⟨by rw [hm]; simp, by simp, by simp, by simp⟩ ?_ ?_ (fun m => ?_)
      (fun c => ?_) (fun hs => ?_) (fun m e => ?_) (fun j _ => ?_) (fun c hc => ?_)
      (fun hge => by omega)
    · rw [hself, ptr_newDirInode (by omega), if_pos rfl]
    · rw [bmap_putInode, bmap_setImap _ hn, hfree]
    · rw [hm', hm]
    · unfold newDirDisk
      rw [bmap_putBlock, bmap_putInode, bmap_setBit _ hb, bmap_putInode]
    · unfold newDirDisk
      refine SbOn.putBlock (SbOn.putInode (b3 ?_) _ _) _ _ _
      intro k hk
      rw [← hs k hk]
      exact (blit_out (by have := bases; omega)).symm
    · rw [hne' m e, hne m e]
    · rw [hself', hself, ptr_newDirInode hb, ptr_newDirInode (by omega)]
      split_ifs <;> rfl
    · unfold newDirDisk
      rw [block_putBlock_of_ne _ _ _ hc, block_putInode _ _ hn, b2, hbl, i2]
  have hpb : ∀ m, imap d m = true → ∀ l, pblk (newDirDisk d n b t) m l = pblk d m l := by
    intro m hmm l
    have hmn : m ≠ n := by
      rintro rfl
      rw [hd] at hmm
      cases hmm
    rw [← h2 m hmm]
    by_cases hl : l < maxBlocks
    · refine hF.ref_ne _ _ (blockPath_shape (by rw [hm, hmm, Bool.or_true]) hl) ?_
      rintro ⟨e, -⟩
      exact hmn (Prod.mk.inj e).1
    · rw [pblk_of_ge _ _ (by omega), pblk_of_ge _ _ (by omega)]
  have hpn : pblk (newDirDisk d n b t) n 0 = b := (pblk_direct _ _ (by omega)).trans hF'
  have hb0 : b ≠ 0 := by
    rintro rfl
    rw [h.bmap_zero] at hfree
    cases hfree
  refine ⟨⟨hd, hF.inv, fun hs => ?_, hm', hself', hne', hpb, fun m hmm l => ?_⟩, ?_,
    fun i hi => ?_⟩
  · unfold newDirDisk
    exact SbOn.putBlock (SbOn.putInode (b3 (i3 hs)) _ _) _ _ _
  · unfold fileBlock
    rw [hpb m hmm]
    unfold newDirDisk
    rw [block_putBlock_of_ne, block_putInode _ _ hn, b2, i2]
    intro e
    have hu : bmap d (pblk d m l) = true := by
      by_cases hl : l < maxBlocks
      · exact h.owned.used_ref (blockPath_shape hmm hl)
      · rw [pblk_of_ge _ _ (by omega)]
        exact h.bmap_zero
    rw [e, hfree] at hu
    cases hu
  · rwa [hpn]
  · unfold fileBlock
    rw [hpn]
    unfold newDirDisk
    rw [block_putBlock_self _ _ _ _ hi, Nat.zero_add]

/-- The entries of a directory of one block that holds its two dots. -/
theorem ent_dots {d : Mem} {n p : ℕ} {t : Mem} (hm : imap d n = true) (hd : isDir d n)
    (hk : dirBlocks d n = 1) (hp : p < 4096)
    (hfb : ∀ i < 4096, fileBlock d n 0 i = putDots (fill t 0 0#8 4096) n p i) (l j : ℕ) :
    ent d (n, l, j) = if (l, j) = (0, 1) then some (dotdot, p)
      else if (l, j) = (0, 0) then some (dot, n) else none := by
  have hn := imap_lt hm
  by_cases hlj : l < 1 ∧ j < 204
  · obtain rfl : l = 0 := by omega
    have hdc : ∀ a, a + 20 ≤ 4096 → dentryAt (fileBlock d n 0) a =
        dentryAt (putDots (fill t 0 0#8 4096) n p) a := fun a ha =>
      dentryAt_congr fun i hi => hfb _ (by omega)
    rw [ent_of hm hd (by omega) hlj.2, hdc _ (by omega)]
    by_cases h1 : j = 1
    · subst h1
      rw [if_pos rfl]
      exact dentryAt_putDots_one t (by omega)
    · rw [if_neg (by simpa using h1)]
      by_cases h2 : j = 0
      · subst h2
        rw [if_pos rfl]
        exact dentryAt_putDots_zero t (by omega)
      · rw [if_neg (by simpa using h2), dentryAt, if_pos (putDots_zero t (by omega) (by omega))]
  · unfold ent
    rw [if_neg, if_neg (by simp; omega), if_neg (by simp; omega)]
    rintro ⟨-, -, h3, h4⟩
    simp only [hk] at h3 h4
    exact hlj ⟨h3, h4⟩

/-- The entries of a new directory. -/
theorem born_dir_ent {d d' : Mem} {n b p : ℕ} {t : Mem} (hB : Born n (newDirInode b) d d')
    (hp : p < 4096)
    (hfb : ∀ i < 4096, fileBlock d' n 0 i = putDots (fill t 0 0#8 4096) n p i) :
    dirBlocks d' n = 1 ∧ isDir d' n ∧ ent d' = Function.update (Function.update (ent d) (n, 0, 0)
      (some (dot, n))) (n, 0, 1) (some (dotdot, p)) := by
  have hm : imap d' n = true := by rw [hB.imap]; simp
  have hd : isDir d' n := by unfold isDir; rw [hB.self]; rfl
  have hk : dirBlocks d' n = 1 := by unfold dirBlocks; rw [hB.self, size_newDirInode]
  refine ⟨hk, hd, ?_⟩
  funext τ
  obtain ⟨q, l, j⟩ := τ
  simp only [Function.update_apply]
  by_cases hq : q = n
  · subst hq
    rw [ent_dots hm hd hk hp hfb, ent_of_unmarked (d := d) hB.dead]
    simp only [Prod.mk.injEq, true_and]
  · rw [if_neg (by simp [hq]), if_neg (by simp [hq])]
    exact hB.ent_ne hq

/-- What `do_mkdir` does to a well-formed disk when it succeeds. -/
structure AddedDir (d d' : Mem) (n : ℕ) : Prop where
  wf : Wf d'
  dead : imap d n = false
  tree : ∃ σ x, (nameTree d).Room naming σ x ∧
    nameTree d' = (nameTree d).addDir naming σ x n (n, 0, 0) (n, 0, 1)
  imap : ∀ m, Fs.imap d' m = (decide (m = n) || Fs.imap d m)
  files : ∀ m, Fs.imap d m = true → ¬ isDir d m → SameFile m d d'

section Mkdir

variable {s : State} (h : WfState s) {path : CStr} (h0 : 0#8 ∉ path) (hx : NameOk (lastName path))
  (hp : (splitParent s path).1 ≠ neg1 → isDir s.disk (splitParent s path).1)

include h h0 hx hp

/-- `do_mkdir`: -1 and nothing happens, or a new directory. -/
theorem doMkdir_spec (hf : (doMkdir s path).2.allocFailed = false) :
    (∃ t, doMkdir s path = (-1, s.put s.disk t)) ∨
    (∃ n d t, doMkdir s path = (0, s.put d t) ∧ AddedDir s.disk d n) := by
  obtain ⟨p, x, t, e1, hp1, hx0, hneg⟩ := h.splitParent h0
  have hxn := splitParent_name s path
  simp only [e1] at hp hxn
  subst hxn
  unfold doMkdir at hf ⊢
  simp only [e1] at hf ⊢
  by_cases hpn : p = neg1
  · rw [if_pos ⟨hneg hpn, hpn⟩]
    exact Or.inl ⟨t, rfl⟩
  rw [if_neg (fun hc => hpn hc.2)] at hf ⊢
  have hpm := hp1.resolve_left hpn
  have hpd := hp hpn
  have hpok := h.wf.dirs p hpm hpd
  rcases (h.put_temp t).findInodeByName hpm hx0 with ⟨σ, m, t2, -, hm, e2⟩ | ⟨hno, t2, e2⟩
  · simp only [State.put_disk, State.put_put] at e2 hm
    simp only [e2] at hf ⊢
    rw [if_pos (live_ne_neg1 (h.wf.tree.target_live hm))]
    exact Or.inl ⟨t2, rfl⟩
  simp only [State.put_disk, State.put_put] at e2 hno
  simp only [e2, ne_eq, not_true_eq_false, if_false] at hf ⊢
  have hp' := imap_lt hpm
  have hf2 : (allocBlock (allocInode (s.put s.disk t2)).2).2.allocFailed = false := by
    have := appendDentry_failed (show (appendDentry _ _ _ _).2.allocFailed = false from hf)
    rwa [writeBlock_allocFailed, State.setTemp_eq, State.put_allocFailed,
      writeInode_allocFailed] at this
  rcases allocInode_spec (h.put_temp t2).sbOk with ⟨n, hn, hnd, e3⟩ | ⟨-, e3⟩
  swap
  · have := allocBlock_failed hf2
    rw [e3] at this
    cases this
  simp only [State.put_disk, State.put_temp, State.put_put] at hnd e3
  obtain ⟨i1, i2, i3⟩ := observe_setImap s.disk hn
  have hsb1 : SbOk (s.put (setBit s.disk imapBase n) t2) := h.sbOk.put (i3 h.wf.sb) _
  rw [e3] at hf2
  rcases allocBlock_spec hsb1 with ⟨b, hb, hfree, e4⟩ | ⟨-, e4⟩
  swap
  · simp only [e4] at hf2
    cases hf2
  simp only [State.put_disk, State.put_temp, State.put_put, bmap_setImap _ hn] at hfree e4
  simp only [e3, e4, writeInode_eq _ hn, State.put_disk, State.put_temp, State.put_put,
    State.setTemp_eq, writeBlock_eq _ hb, State.put_stack, blockSize, newDirDisk_eq,
    getInode_eq _ hp'] at hf ⊢
  obtain ⟨hB, hpb0, hfb⟩ := born_dir h.wf.blk hn hnd hb hfree
    (putDots (fill t2 0 0#8 4096) n p)
  obtain ⟨hk1, hd1, hent1⟩ := born_dir_ent hB hp' hfb
  generalize hD1 : newDirDisk s.disk n b (putDots (fill t2 0 0#8 4096) n p) = d1 at *
  have hpm1 := hB.imap_old hpm
  have hpn' : p ≠ n := hB.ne hpm
  have hpi : inode d1 p = inode s.disk p := hB.inode_ne p hpn'
  have hpd1 : isDir d1 p := by unfold isDir; rw [hpi]; exact hpd
  have hpok1 := hB.dirOk hpm hpok
  obtain ⟨d2, t3, node, σ, e5, ht5, hl5, hL⟩ := appendDentry_spec
    (h.sbOk.put (hB.sb h.wf.sb) _) hB.inv hpm1 hpd1 hpok1
    (e := (lastName path, n)) (by have := hx.2; simp only; omega) (inode d1 p) rfl rfl rfl
    (dentryAt_mkDentry s.stack hx0 hx.1 (by have := hx.2; omega) (show n < 2 ^ 32 by omega)) hf
  have hL := hL (node.setNlinks (node.nlinks + 1)) rfl rfl rfl
  simp only [e5, writeInode_eq _ hp', State.put_disk, State.put_temp, State.put_put] at hL ⊢
  have hip := inode_putInode_self d2 (node.setNlinks (node.nlinks + 1)) hp'
  generalize hd2 : putInode d2 p (node.setNlinks (node.nlinks + 1)) = d' at *
  have hlink := h.wf.links_lt hpm
  have hnl : (inode d' p).nlinks = (inode s.disk p).nlinks + 1 := by
    rw [hip, Inode.nlinks_setNlinks, hl5, hpi, u32_of_lt hlink]
  have hin : inode d' n = newDirInode b := by rw [hL.only.inode_ne n hpn'.symm, hB.self]
  have hmark : ∀ m, imap d' m = (decide (m = n) || imap s.disk m) := fun m => by
    rw [hL.only.imap, hB.imap]
  have hty : ∀ m ≠ n, (inode d' m).type = (inode s.disk m).type := by
    intro m hm
    by_cases e : m = p
    · subst e
      rw [hip, Inode.type_setNlinks, ht5, hpi]
    · rw [hL.only.inode_ne m e, hB.inode_ne m hm]
  have hfile : ∀ m, imap s.disk m = true → m ≠ p → SameFile m s.disk d' := fun m hm hmp =>
    (hB.sameFile hm).trans (hL.only.sameFile hmp (hB.imap_old hm))
  have hσn : σ.1 ≠ n := by rw [hL.owner]; exact hpn'
  have hfree : ent s.disk σ = none := by rw [← hB.ent_ne hσn]; exact hL.free
  have hroom := room_of hpm hpd hno hL.owner hfree
  have htree : nameTree d' =
      (nameTree s.disk).addDir naming σ (lastName path) n (n, 0, 0) (n, 0, 1) := by
    apply NameTree.ext
    · funext m
      show (imap d' m = true) = (m = n ∨ imap s.disk m = true)
      rw [hmark]
      simp
    · funext m
      show isDir d' m = (m = n ∨ isDir s.disk m)
      by_cases e : m = n
      · subst e
        unfold isDir
        rw [hin]
        simp [newDirInode, Inode.setDirect, Inode.setNlinks, Inode.setSize, Inode.setType, u32]
      · unfold isDir
        rw [hty m e]
        simp [e]
    · funext m
      show (inode d' m).nlinks = Function.update (Function.update
        (fun k => (inode s.disk k).nlinks) σ.1 ((inode s.disk σ.1).nlinks + 1)) n 2 m
      rw [hL.owner]
      by_cases e : m = n
      · subst e
        rw [Function.update_self, hin]
        rfl
      · rw [Function.update_of_ne e]
        by_cases e' : m = p
        · subst e'
          rw [Function.update_self, hnl]
        · rw [Function.update_of_ne e', hL.only.inode_ne m e', hB.inode_ne m e]
    · show ent d' = Function.update (Function.update (Function.update (ent s.disk) σ _) _ _) _ _
      have c1 : σ ≠ (n, 0, 0) := fun e => hσn (by rw [e])
      have c2 : σ ≠ (n, 0, 1) := fun e => hσn (by rw [e])
      have c3 : naming.owner σ = p := hL.owner
      rw [hL.ent, hent1, c3, Function.update_comm c2.symm, Function.update_comm c1.symm]
      rfl
  refine Or.inr ⟨n, d', t3, rfl, ⟨hL.only.sb (hB.sb h.wf.sb), hL.only.inv, fun q hq hqd => ?_,
    fun m hm hmd => ?_, ?_⟩, hnd, ⟨σ, _, hroom, htree⟩, hmark, fun m hm hmd => hfile m hm ?_⟩
  · by_cases e : q = p
    · subst e
      exact hL.ok
    · refine hL.only.dirOk_ne e (by rw [hB.imap, ← hmark]; exact hq) ?_
      by_cases e' : q = n
      · subst e'
        refine ⟨by rw [hk1, hB.self, size_newDirInode], by omega, fun l hl => ?_, ?_⟩
        · obtain rfl : l = 0 := by omega
          exact hpb0
        · rintro τ y k hτ hy
          rw [hent1] at hy
          simp only [Function.update_apply] at hy
          split_ifs at hy
          · cases hy
            decide
          · cases hy
            decide
          · rw [ent_of_unmarked (by rw [hτ]; exact hnd)] at hy
            cases hy
      · rw [hmark, decide_eq_false e', Bool.false_or] at hq
        unfold isDir at hqd
        rw [hty q e'] at hqd
        exact hB.dirOk hq (h.wf.dirs q hq hqd)
  · have hmn : m ≠ n := by
      rintro rfl
      exact hmd (by unfold isDir; rw [hin]; rfl)
    rw [hmark, decide_eq_false hmn, Bool.false_or] at hm
    unfold isDir at hmd
    rw [hty m hmn] at hmd
    rw [(hfile m hm (by rintro rfl; exact hmd hpd)).size]
    exact h.wf.sizes m hm hmd
  · rw [htree]
    exact h.wf.tree.addDir hroom ⟨by
      show ¬ imap s.disk n = true
      rw [hnd]; simp, by simp, rfl, rfl⟩
  · rintro rfl
    exact hmd hpd

end Mkdir

end RiscvKernel.Fs
