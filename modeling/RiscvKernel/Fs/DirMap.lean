import RiscvKernel.Fs.Create
import RiscvKernel.Fs.Lookup

/-!
# A directory as a finite map

The names of a directory with distinct names are a map from names to inode numbers (`dirMap`), which
`find_inode_by_name` evaluates (`lookup_dirMap`). `append_dentry` followed by the write of the inode
adds a name to the map and `remove_dentry` takes one away, whether the entry goes to a slot that has
become free, to a new block, or to the first one behind a new index block. The maps of the other
directories stay (`directory_map`).
-/

namespace RiscvKernel.Fs

open Lib Lib.Forest

/-! ## The map -/

/-- Directory `p` has an entry with name `x` for `m`. -/
def Listed (d : Mem) (p : ℕ) (x : CStr) (m : ℕ) : Prop := ∃ σ, σ.1 = p ∧ ent d σ = some (x, m)

open Classical in
/-- The map of a directory. -/
noncomputable def dirMap (d : Mem) (p : ℕ) (x : CStr) : Option ℕ :=
  if h : ∃ m, Listed d p x m then some h.choose else none

/-- A directory whose live names are distinct. -/
structure NamesDistinct (d : Mem) (p : ℕ) : Prop where
  live : imap d p = true
  dir : isDir d p
  ok : DirOk d p
  distinct : ∀ σ τ x m m', σ.1 = p → τ.1 = p → ent d σ = some (x, m) → ent d τ = some (x, m') → σ = τ

section Map

variable {d d' : Mem} {p : ℕ} (hp : NamesDistinct d p) {x : CStr} {m : ℕ}

include hp

theorem NamesDistinct.dirMap_some (h : Listed d p x m) : dirMap d p x = some m := by
  have hex : ∃ m, Listed d p x m := ⟨m, h⟩
  unfold dirMap
  rw [dif_pos hex]
  obtain ⟨σ, hσ, e⟩ := h
  obtain ⟨τ, hτ, e'⟩ := hex.choose_spec
  obtain rfl := hp.distinct σ τ x _ _ hσ hτ e e'
  rw [e] at e'
  cases e'
  rfl

omit hp in
theorem dirMap_none (h : ∀ m, ¬ Listed d p x m) : dirMap d p x = none := by
  unfold dirMap
  rw [dif_neg (not_exists.mpr h)]

/-- A new entry with a new name. -/
theorem Linked.namesDistinct {σ : Slot} {i : ℕ} (h : Linked p σ (x, i) d d')
    (hx : ∀ m, ¬ Listed d p x m) (hdir : isDir d' p) : NamesDistinct d' p := by
  refine ⟨(h.only.imap p).trans hp.live, hdir, h.ok, ?_⟩
  intro τ υ y k k' hτ hυ e e'
  rw [h.ent, Function.update_apply] at e e'
  split_ifs at e e' with h1 h2 h3
  · rw [h1, h2]
  · cases e
    exact absurd ⟨υ, hυ, e'⟩ (hx k')
  · cases e'
    exact absurd ⟨τ, hτ, e⟩ (hx k)
  · exact hp.distinct τ υ y k k' hτ hυ e e'

theorem Linked.dirMap {σ : Slot} {i : ℕ} (h : Linked p σ (x, i) d d')
    (hx : ∀ m, ¬ Listed d p x m) (hdir : isDir d' p) :
    dirMap d' p = Function.update (dirMap d p) x (some i) := by
  have hp' := h.namesDistinct hp hx hdir
  funext y
  by_cases hy : y = x
  · subst hy
    rw [Function.update_self]
    exact hp'.dirMap_some ⟨σ, h.owner, by rw [h.ent, Function.update_self]⟩
  · rw [Function.update_of_ne hy]
    by_cases hex : ∃ m, Listed d p y m
    · obtain ⟨m, τ, hτ, e⟩ := hex
      rw [hp.dirMap_some ⟨τ, hτ, e⟩]
      refine hp'.dirMap_some ⟨τ, hτ, ?_⟩
      rw [h.ent, Function.update_of_ne, e]
      rintro rfl
      rw [h.free] at e
      cases e
    · rw [dirMap_none (not_exists.mp hex), dirMap_none]
      rintro m ⟨τ, hτ, e⟩
      rw [h.ent, Function.update_apply] at e
      split_ifs at e
      · cases e
        exact hy rfl
      · exact hex ⟨m, τ, hτ, e⟩

theorem Unlinked.namesDistinct {σ : Slot} (h : Unlinked p σ d d') (hdir : isDir d' p) :
    NamesDistinct d' p := by
  refine ⟨(h.only.imap p).trans hp.live, hdir, h.ok, ?_⟩
  intro τ υ y k k' hτ hυ e e'
  rw [h.ent, Function.update_apply] at e e'
  split_ifs at e e'
  exact hp.distinct τ υ y k k' hτ hυ e e'

theorem Unlinked.dirMap {σ : Slot} (h : Unlinked p σ d d') (hσ : Fs.ent d σ = some (x, m))
    (hdir : isDir d' p) : dirMap d' p = Function.update (dirMap d p) x none := by
  have hp' := h.namesDistinct hp hdir
  funext y
  by_cases hy : y = x
  · subst hy
    rw [Function.update_self]
    refine dirMap_none ?_
    rintro k ⟨τ, hτ, e⟩
    rw [h.ent, Function.update_apply] at e
    split_ifs at e with hτσ
    exact hτσ (hp.distinct τ σ y k m hτ h.owner e hσ)
  · rw [Function.update_of_ne hy]
    by_cases hex : ∃ m, Listed d p y m
    · obtain ⟨k, τ, hτ, e⟩ := hex
      rw [hp.dirMap_some ⟨τ, hτ, e⟩]
      refine hp'.dirMap_some ⟨τ, hτ, ?_⟩
      rw [h.ent, Function.update_of_ne, e]
      rintro rfl
      rw [hσ] at e
      cases e
      exact hy rfl
    · rw [dirMap_none (not_exists.mp hex), dirMap_none]
      rintro k ⟨τ, hτ, e⟩
      rw [h.ent, Function.update_apply] at e
      split_ifs at e
      exact hex ⟨k, τ, hτ, e⟩

end Map

/-! ## The lookups -/

section Lookups

variable {s : State} (h : BlkInv s.disk) {p : ℕ} {x : CStr} (hx : 0#8 ∉ x)

include h hx

/-- `find_inode_by_name` evaluates the map. -/
theorem lookup_dirMap (hp : NamesDistinct s.disk p) :
    lookup s p x = (dirMap s.disk p x).getD neg1 := by
  have hk := hp.ok.blocks_le h hp.live
  unfold lookup
  rcases findInodeByName_spec hp.live hp.dir hp.ok hk
    (fun l hl => h.pathOk hp.live (by unfold maxBlocks; omega)) hx with ⟨σ, m, t, hσ, e, hf⟩ | ⟨hn, t, hf⟩
  · rw [hf, hp.dirMap_some ⟨σ, hσ, e⟩]
    rfl
  · rw [hf, dirMap_none]
    · rfl
    · rintro m ⟨σ, hσ, e⟩
      exact hn σ m hσ e

/-- What `find_inode_by_name` returns, by the inode and the contents of the directory. -/
theorem lookup_firstSlot (hp : imap s.disk p = true) (hd : isDir s.disk p) (hok : DirOk s.disk p) :
    lookup s p x = match firstSlot s.disk p (dirBlocks s.disk p) (fun t => hasName t x) with
      | some (l, j) => word (fileBlock s.disk p l) (20 * j + 16)
      | none => neg1 := by
  have hk := hok.blocks_le h hp
  have hd' : (inode s.disk p).type = fdDir := hd
  obtain ⟨t, e, ht⟩ := searchDentry_eq (Eq.refl (inode s.disk p).ptr)
    (k := dirBlocks s.disk p) (by unfold maxBlocks; omega)
    (fun l hl => h.pathOk hp (by unfold maxBlocks; omega)) (P := fun t => hasName t x)
    (fun l hl _ j hj t ht => Bool.eq_iff_iff.mpr
      ((hasName_iff hp hd hok hx hl hj ht).trans
        (hasName_iff hp hd hok hx hl hj fun _ _ => rfl).symm))
  unfold lookup findInodeByName
  simp only [getInode_eq s (imap_lt hp), hok.numBlocks_eq hk rfl]
  rw [if_neg (not_not_intro hd'), e]
  cases hf : firstSlot s.disk p (dirBlocks s.disk p) (fun t => hasName t x) with
  | none => rfl
  | some σ =>
    obtain ⟨l, j⟩ := σ
    obtain ⟨-, -, hj, -⟩ := firstSlot_some hf
    exact word_congr fun i hi => ht l j hf _ (by simp only [dentrySize, maxFnameLen]; omega)

/-- A lookup in a directory other than the one that changes. -/
theorem lookup_other {s' : State} {q : ℕ} (ho : Only p s.disk s'.disk) (hq : q ≠ p)
    (hm : imap s.disk q = true) (hd : isDir s.disk q) (hok : DirOk s.disk q) :
    lookup s' q x = lookup s q x := by
  have hi := ho.inode_ne q hq
  have hd' : isDir s'.disk q := by
    unfold isDir
    rw [hi]
    exact hd
  have hn : dirBlocks s'.disk q = dirBlocks s.disk q := by
    unfold dirBlocks
    rw [hi]
  have hb := ho.block_ne q hq hm
  have hf : firstSlot s'.disk q (dirBlocks s.disk q) (fun t => hasName t x) =
      firstSlot s.disk q (dirBlocks s.disk q) (fun t => hasName t x) := by
    refine scan_congr fun l _ _ => ?_
    rw [ho.pblk_ne q hq hm, hb]
  rw [lookup_firstSlot h hx hm hd hok, lookup_firstSlot ho.inv hx ((ho.imap q).trans hm) hd'
    (ho.dirOk_ne hq hm hok), hn, hf]
  simp only [hb]

end Lookups

/-! ## Adding and removing -/

/-- `append_dentry` on the directory's inode, and the write of the inode. -/
def addName (s : State) (p : ℕ) (dentry : Mem) : State :=
  let r := appendDentry s (getInode s p) p dentry
  writeInode r.2 p r.1

/-- `remove_dentry` on the directory's inode. -/
def removeName (s : State) (p : ℕ) (x : CStr) : State := (removeDentry s (getInode s p) p x).2

/-- What a change of directory `p` is in terms of maps: its map becomes `f`, it is a directory with
distinct names as before, and lookups in other directories give the same. -/
structure Becomes (s : State) (p : ℕ) (f : CStr → Option ℕ) (s' : State) : Prop where
  sb : SbOk s'
  blk : BlkInv s'.disk
  names : NamesDistinct s'.disk p
  map : dirMap s'.disk p = f
  lookup : ∀ y, 0#8 ∉ y → Fs.lookup s' p y = (f y).getD neg1
  others : ∀ q, q ≠ p → imap s.disk q = true → isDir s.disk q → DirOk s.disk q → ∀ y, 0#8 ∉ y →
    Fs.lookup s' q y = Fs.lookup s q y

section Change

variable {s : State} (hs : SbOk s) (h : BlkInv s.disk) {p : ℕ} (hp : NamesDistinct s.disk p) {x : CStr}

include h in
theorem becomes_of {s' : State} {f : CStr → Option ℕ} (ho : Only p s.disk s'.disk) (hs' : SbOk s')
    (hp' : NamesDistinct s'.disk p) (hf : dirMap s'.disk p = f) : Becomes s p f s' where
  sb := hs'
  blk := ho.inv
  names := hp'
  map := hf
  lookup y hy := by rw [lookup_dirMap ho.inv hy hp', hf]
  others q hq hm hd hok y hy := lookup_other h hy ho hq hm hd hok

include hs h hp

/-- A name that is not there is added. -/
theorem addName_becomes (h2 : x.length < 16) {i : ℕ} {dm : Mem}
    (hdm : dentryAt dm 0 = some (x, i)) (hno : ∀ m, ¬ Listed s.disk p x m)
    (hf : (appendDentry s (getInode s p) p dm).2.allocFailed = false) :
    Becomes s p (Function.update (dirMap s.disk p) x (some i)) (addName s p dm) := by
  have hlt := imap_lt hp.live
  rw [getInode_eq s hlt] at hf
  obtain ⟨d, t, node', σ, e, htype, -, hL⟩ := appendDentry_spec hs h hp.live hp.dir hp.ok
    (e := (x, i)) h2 (inode s.disk p) rfl rfl rfl hdm hf
  have hl := hL node' rfl rfl rfl
  have e' : addName s p dm = s.put (putInode d p node') t := by
    unfold addName
    rw [getInode_eq s hlt, e]
    exact writeInode_eq _ hlt _
  have hdir : isDir (putInode d p node') p := by
    unfold isDir
    rw [inode_putInode_self _ _ hlt, htype]
    exact hp.dir
  rw [e']
  exact becomes_of h hl.only (hs.put (hl.only.sb hs.on) t) (hl.namesDistinct hp hno hdir)
    (hl.dirMap hp hno hdir)

/-- A name is removed; if it is not there nothing happens. -/
theorem removeName_becomes (hx : 0#8 ∉ x) :
    Becomes s p (Function.update (dirMap s.disk p) x none) (removeName s p x) := by
  have hlt := imap_lt hp.live
  by_cases hex : ∃ m, Listed s.disk p x m
  · obtain ⟨m, τ, hτ, eτ⟩ := hex
    obtain ⟨σ, k, t, hσ, e, hU⟩ := removeDentry_spec h hp.live hp.dir hp.ok hx (inode s.disk p) rfl rfl
      hτ eτ
    have e' : removeName s p x = s.put (unlinkSlot s.disk σ) t := by
      unfold removeName
      rw [getInode_eq s hlt, e]
    have hj : σ.2.2 < 204 := (ent_some hσ).2.2.2
    have hdir : isDir (unlinkSlot s.disk σ) p := by
      unfold isDir
      rw [(observe_unlinkSlot (d := s.disk) (p := σ.1) (l := σ.2.1) hj).2.2.1 p]
      exact hp.dir
    rw [e']
    exact becomes_of h hU.only (hs.put (hU.only.sb hs.on) t) (hU.namesDistinct hp hdir)
      (hU.dirMap hp hσ hdir)
  · have hk := hp.ok.blocks_le h hp.live
    have hno : ∀ m, ¬ Listed s.disk p x m := not_exists.mp hex
    rcases searchName_spec hp.live hp.dir hp.ok hk
      (fun l hl => h.pathOk hp.live (by unfold maxBlocks; omega)) hx (inode s.disk p) rfl rfl with
      ⟨l, j, m, t, e, -⟩ | ⟨-, t, e⟩
    · exact absurd ⟨_, rfl, e⟩ (hno m)
    have e' : removeName s p x = s.put s.disk t := by
      unfold removeName removeDentry
      rw [getInode_eq s hlt, e]
    rw [e']
    refine becomes_of h (Only.refl h) (hs.put hs.on t) hp ?_
    rw [← dirMap_none hno, Function.update_eq_self]
    rfl

end Change

/-- A directory with distinct names is a finite map from names to inode numbers: a name that is not
there can be added, any name can be removed, adding and removing it restores the map, and the maps of
other directories are not touched. -/
theorem directory_map {s : State} (hs : SbOk s) (h : BlkInv s.disk) {p : ℕ}
    (hp : NamesDistinct s.disk p) {x : CStr} (hx : NameOk x) (h0 : 0#8 ∉ x) :
    (∀ buf i, i < 2 ^ 32 → (∀ m, ¬ Listed s.disk p x m) →
      (appendDentry s (getInode s p) p (mkDentry buf x i)).2.allocFailed = false →
        lookup (addName s p (mkDentry buf x i)) p x = i ∧
        (∀ y, 0#8 ∉ y → y ≠ x →
          lookup (addName s p (mkDentry buf x i)) p y = lookup s p y) ∧
        (∀ y, 0#8 ∉ y →
          lookup (removeName (addName s p (mkDentry buf x i)) p x) p y = lookup s p y) ∧
        ∀ q, q ≠ p → imap s.disk q = true → isDir s.disk q → DirOk s.disk q → ∀ y, 0#8 ∉ y →
          lookup (addName s p (mkDentry buf x i)) q y = lookup s q y) ∧
      lookup (removeName s p x) p x = neg1 ∧
      (∀ y, 0#8 ∉ y → y ≠ x → lookup (removeName s p x) p y = lookup s p y) ∧
      ∀ q, q ≠ p → imap s.disk q = true → isDir s.disk q → DirOk s.disk q → ∀ y, 0#8 ∉ y →
        lookup (removeName s p x) q y = lookup s q y := by
  obtain ⟨h1, h2⟩ := hx
  refine ⟨fun buf i hi hno hf => ?_, ?_, fun y hy hne => ?_, ?_⟩
  · have hA := addName_becomes hs h hp (by omega)
      (dentryAt_mkDentry buf h0 (by omega) (by omega) hi) hno hf
    have hR := removeName_becomes hA.sb hA.blk hA.names h0
    refine ⟨?_, fun y hy hne => ?_, fun y hy => ?_, hA.others⟩
    · rw [hA.lookup x h0, Function.update_self]
      rfl
    · rw [hA.lookup y hy, Function.update_of_ne hne, lookup_dirMap h hy hp]
    · rw [hR.lookup y hy, hA.map, Function.update_idem, ← dirMap_none hno, Function.update_eq_self,
        lookup_dirMap h hy hp]
  · rw [(removeName_becomes hs h hp h0).lookup x h0, Function.update_self]
    rfl
  · rw [(removeName_becomes hs h hp h0).lookup y hy, Function.update_of_ne hne,
      lookup_dirMap h hy hp]
  · exact (removeName_becomes hs h hp h0).others

theorem WfState.namesDistinct {s : State} (h : WfState s) {p : ℕ} (hp : imap s.disk p = true)
    (hd : isDir s.disk p) : NamesDistinct s.disk p where
  live := hp
  dir := hd
  ok := h.wf.dirs p hp hd
  distinct _ _ _ _ _ hσ hτ e e' := h.wf.tree.distinct e e' (hσ.trans hτ.symm)

/-- On a new file system: the name `a` for inode 7 in the root directory. -/
theorem directory_map_boot :
    lookup (addName (boot.load 0 fun _ => 0#8) 0 (mkDentry (fun _ => 0#8) [97#8] 7)) 0 [97#8] = 7 ∧
      lookup (removeName (addName (boot.load 0 fun _ => 0#8) 0 (mkDentry (fun _ => 0#8) [97#8] 7)) 0
        [97#8]) 0 dot = 0 := by
  have hw : WfState (boot.load 0 fun _ => 0#8) := boot_start.wf.load 0 _
  have hp := hw.namesDistinct (p := 0) hw.wf.tree.root_live (by decide +kernel)
  have hno : ∀ m, ¬ Listed (boot.load 0 fun _ => 0#8).disk 0 [97#8] m := by
    rintro m ⟨σ, hσ, e⟩
    have hm := lookup_dirMap hw.wf.blk (x := [97#8]) (by decide) hp
    rw [hp.dirMap_some ⟨σ, hσ, e⟩] at hm
    have h1 : lookup (boot.load 0 fun _ => 0#8) 0 [97#8] = neg1 := by decide +kernel
    have h2 : m = neg1 := hm.symm.trans h1
    have h3 : imap (boot.load 0 fun _ => 0#8).disk m = true := hw.wf.tree.target_live e
    have := imap_lt h3
    rw [h2] at this
    exact absurd this (by decide)
  obtain ⟨h, -⟩ := directory_map hw.sbOk hw.wf.blk hp (x := [97#8]) (by decide) (by decide)
  obtain ⟨h1, -, h3, -⟩ := h (fun _ => 0#8) 7 (by norm_num) hno (by decide +kernel)
  refine ⟨h1, ?_⟩
  rw [h3 dot (by decide)]
  decide +kernel

end RiscvKernel.Fs
