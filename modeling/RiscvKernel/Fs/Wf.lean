import RiscvKernel.Lib.NameTree
import RiscvKernel.Fs.Data

/-!
# Well-formed file systems

`nameTree d` is the name space of a disk, in the terms of `Lib.NameTree`. `Wf d` is the invariant
of the file system: the superblock is in place, the block map agrees with the block pointers, every
directory consists of whole blocks, and the name space satisfies its own invariant.

On a well-formed disk the path functions only read: they change nothing but `TEMP_BUF`, and what
they return is -1 or a marked inode.
-/

namespace RiscvKernel.Fs

open Lib Lib.Forest

/-! ## The invariant -/

/-- Slots belong to the directory they are in, and the root is inode 0. -/
def naming : Naming ℕ Slot CStr where
  owner := Prod.fst
  dot := dot
  dotdot := dotdot
  root := 0
  ne := by decide

/-- The name space of a disk. -/
def nameTree (d : Mem) : NameTree ℕ Slot CStr where
  live n := imap d n = true
  dir := isDir d
  links n := (inode d n).nlinks
  ent := ent d

/-- A well-formed disk. -/
structure Wf (d : Mem) : Prop where
  sb : SbOn d
  blk : BlkInv d
  dirs : ∀ p, imap d p = true → isDir d p → DirOk d p
  sizes : ∀ n, imap d n = true → ¬ isDir d n → (inode d n).size < 2 ^ 31
  tree : (nameTree d).Inv naming

/-- A well-formed disk with the superblock in memory. -/
structure WfState (s : State) : Prop where
  valid : s.sbValid = true
  sb : s.sb = mkfsSb
  wf : Wf s.disk
  cwd : imap s.disk s.dirInode = true ∧ isDir s.disk s.dirInode

theorem WfState.sbOk {s : State} (h : WfState s) : SbOk s := ⟨h.valid, h.sb, h.wf.sb⟩

/-- A call that only reads. -/
theorem WfState.put_temp {s : State} (h : WfState s) (t : Mem) : WfState (s.put s.disk t) :=
  ⟨h.valid, h.sb, h.wf, h.cwd⟩

/-- The data of a file: its size, its block pointers and its contents. -/
structure SameFile (m : ℕ) (d d' : Mem) : Prop where
  size : (inode d' m).size = (inode d m).size
  ptr : (inode d' m).ptr = (inode d m).ptr
  pblk : ∀ l, pblk d' m l = pblk d m l
  block : ∀ l, fileBlock d' m l = fileBlock d m l

theorem SameFile.refl (m : ℕ) (d : Mem) : SameFile m d d :=
  ⟨rfl, rfl, fun _ => rfl, fun _ => rfl⟩

theorem SameFile.trans {m : ℕ} {d d' d'' : Mem} (h : SameFile m d d') (h' : SameFile m d' d'') :
    SameFile m d d'' :=
  ⟨h'.size.trans h.size, h'.ptr.trans h.ptr, fun l => (h'.pblk l).trans (h.pblk l),
    fun l => (h'.block l).trans (h.block l)⟩

theorem SameFile.fileByte {m : ℕ} {d d' : Mem} (h : SameFile m d d') (o : ℕ) :
    fileByte d' m o = fileByte d m o := by
  unfold Fs.fileByte
  rw [h.block]

theorem Only.sameFile {n : ℕ} {d d' : Mem} (h : Only n d d') {m : ℕ} (hm : m ≠ n)
    (hi : Fs.imap d m = true) : SameFile m d d' :=
  ⟨by rw [h.inode_ne m hm], by rw [h.inode_ne m hm], h.pblk_ne m hm hi, h.block_ne m hm hi⟩

/-! ## Counting entries -/

theorem Wf.ent_ncard_le {d : Mem} (h : Wf d) {a b : ℕ}
    (hb : ∀ σ e, ent d σ = some e → pblk d σ.1 σ.2.1 < a ∧ σ.2.2 < b) :
    {σ | ent d σ ≠ none}.ncard ≤ a * b := by
  have hcard : ((Finset.range a ×ˢ Finset.range b : Finset (ℕ × ℕ)) : Set (ℕ × ℕ)).ncard =
      a * b := by
    rw [Set.ncard_coe_finset, Finset.card_product, Finset.card_range, Finset.card_range]
  rw [← hcard]
  refine Set.ncard_le_ncard_of_injOn (fun σ : Slot => (pblk d σ.1 σ.2.1, σ.2.2)) ?_ ?_
    (Finset.finite_toSet _)
  · intro σ hσ
    obtain ⟨e, he⟩ := Option.ne_none_iff_exists'.mp hσ
    obtain ⟨h1, h2⟩ := hb σ e he
    exact Finset.mem_coe.mpr (Finset.mem_product.mpr
      ⟨Finset.mem_range.mpr h1, Finset.mem_range.mpr h2⟩)
  · rintro ⟨p, l, j⟩ hσ ⟨q, k, i⟩ hτ e
    obtain ⟨v, he⟩ := Option.ne_none_iff_exists'.mp hσ
    obtain ⟨w, he'⟩ := Option.ne_none_iff_exists'.mp hτ
    obtain ⟨h1, h2, h3, -⟩ := ent_some he
    obtain ⟨h5, -, -, -⟩ := ent_some he'
    simp only [Prod.mk.injEq] at e
    obtain ⟨rfl, rfl⟩ := h.blk.pblk_inj h1 h5 ((h.dirs p h1 h2).full l h3) e.1
    rw [e.2]

/-- There are at most 204 entries for every block. -/
theorem Wf.ent_ncard {d : Mem} (h : Wf d) : {σ | ent d σ ≠ none}.ncard ≤ 131072 * 204 :=
  h.ent_ncard_le fun _ _ he => ⟨h.blk.pblk_lt (ent_some he).1 _, (ent_some he).2.2.2⟩

theorem Wf.links_lt {d : Mem} (h : Wf d) {n : ℕ} (hn : imap d n = true) :
    (inode d n).nlinks + 1 < 2 ^ 32 := by
  have hc := h.ent_ncard
  by_cases hd : isDir d n
  · have e := h.tree.dir_links hn hd
    have hle := Set.ncard_le_ncard (s := (nameTree d).subdirs naming n)
      (t := {σ | ent d σ ≠ none}) (by
        rintro s ⟨-, m, ⟨x, e, -⟩, -⟩
        show ent d s ≠ none
        rw [show ent d s = some (x, m) from e]
        simp) h.tree.finite
    change (inode d n).nlinks = _ at e
    omega
  · have e := h.tree.file_links hn hd
    have hle := Set.ncard_le_ncard (s := (nameTree d).refs n) (t := {σ | ent d σ ≠ none}) (by
      rintro s ⟨x, e⟩
      show ent d s ≠ none
      rw [show ent d s = some (x, n) from e]
      simp) h.tree.finite
    change (inode d n).nlinks = _ at e
    omega

/-! ## Looking up names and paths -/

section Lookup

variable {s : State} (h : WfState s)

include h

/-- `find_inode_by_name` in a marked inode. -/
theorem WfState.findInodeByName {p : ℕ} (hp : imap s.disk p = true) {x : CStr} (hx : 0#8 ∉ x) :
    (∃ σ m t, σ.1 = p ∧ ent s.disk σ = some (x, m) ∧
      findInodeByName s p x = (m, s.put s.disk t)) ∨
    ((∀ σ m, σ.1 = p → ent s.disk σ ≠ some (x, m)) ∧
      ∃ t, findInodeByName s p x = (neg1, s.put s.disk t)) := by
  by_cases hd : isDir s.disk p
  · have hok := h.wf.dirs p hp hd
    have hk := hok.blocks_le h.wf.blk hp
    exact findInodeByName_spec hp hd hok hk
      (fun l hl => h.wf.blk.pathOk hp (by unfold maxBlocks; omega)) hx
  · refine Or.inr ⟨?_, s.temp, findInodeByName_of_not_dir (imap_lt hp) hd x⟩
    rintro σ m rfl e
    exact hd (h.wf.tree.owner_dir e).2

theorem WfState.findInodeByName_live {p : ℕ} (hp : imap s.disk p = true) {x : CStr}
    (hx : 0#8 ∉ x) : ∃ r t, Fs.findInodeByName s p x = (r, s.put s.disk t) ∧
      (r = neg1 ∨ imap s.disk r = true) := by
  rcases h.findInodeByName hp hx with ⟨σ, m, t, -, hm, e⟩ | ⟨-, t, e⟩
  · exact ⟨m, t, e, Or.inr (h.wf.tree.target_live hm)⟩
  · exact ⟨neg1, t, e, Or.inl rfl⟩

end Lookup

theorem live_ne_neg1 {d : Mem} {n : ℕ} (h : imap d n = true) : n ≠ neg1 :=
  ne_neg1 (by have := imap_lt h; omega)

/-- The component loop of `find_inode_by_path`. -/
theorem WfState.walkPath {s : State} (h : WfState s) :
    ∀ (n : ℕ) (t : Mem) (p : ℕ) (path : CStr), imap s.disk p = true → 0#8 ∉ path →
      ∃ r t', walkPath n (s.put s.disk t) p path = (r, s.put s.disk t') ∧
        (r = neg1 ∨ imap s.disk r = true) := by
  intro n
  induction n with
  | zero =>
    intro t p path hp _
    exact ⟨p, t, rfl, Or.inr hp⟩
  | succ n ih =>
    intro t p path hp h0
    rw [Fs.walkPath]
    by_cases hnil : path = []
    · rw [if_pos hnil]
      exact ⟨p, t, rfl, Or.inr hp⟩
    · rw [if_neg hnil]
      cases hk : strchr slash path with
      | none =>
        obtain ⟨r, t', e, hr⟩ := (h.put_temp t).findInodeByName_live hp h0
        exact ⟨r, t', e, hr⟩
      | some k =>
        obtain ⟨r, t', e, hr⟩ := (h.put_temp t).findInodeByName_live hp
          (x := path.take k) (fun hm => h0 (List.mem_of_mem_take hm))
        simp only [State.put_disk, State.put_put] at e hr
        simp only [e]
        by_cases hr1 : r = neg1
        · rw [if_pos hr1]
          exact ⟨neg1, t', rfl, Or.inl rfl⟩
        · rw [if_neg hr1]
          exact ih t' r _ (hr.resolve_left hr1) fun hm => h0 (List.mem_of_mem_drop hm)

/-- `find_inode_by_path` gives -1 or a marked inode. -/
theorem WfState.findInodeByPath {s : State} (h : WfState s) {path : CStr} (h0 : 0#8 ∉ path) :
    ∃ r t, findInodeByPath s path = (r, s.put s.disk t) ∧ (r = neg1 ∨ imap s.disk r = true) := by
  unfold Fs.findInodeByPath
  split_ifs
  · exact h.walkPath _ s.temp 0 _ h.wf.tree.root_live fun hm => h0 (List.mem_of_mem_tail hm)
  · exact h.walkPath _ s.temp _ _ h.cwd.1 h0

/-- The path split gives -1 or a marked inode, and the part of the path after the last slash. -/
theorem WfState.splitParent {s : State} (h : WfState s) {path : CStr} (h0 : 0#8 ∉ path) :
    ∃ p x t, splitParent s path = (p, x, s.put s.disk t) ∧ (p = neg1 ∨ imap s.disk p = true) ∧
      0#8 ∉ x ∧ (p = neg1 → slash ∈ path) := by
  unfold Fs.splitParent
  rcases eq_or_last_split slash path with hn | ⟨a, b, rfl, hb⟩
  · rw [strrchr_eq_none hn]
    exact ⟨_, _, s.temp, rfl, Or.inr h.cwd.1, h0, fun e => absurd e (live_ne_neg1 h.cwd.1)⟩
  · rw [strrchr_append hb]
    obtain ⟨r, t, e, hr⟩ := h.findInodeByPath
      (show 0#8 ∉ (a ++ slash :: b).take a.length from fun hm => h0 (List.mem_of_mem_take hm))
    simp only [e]
    refine ⟨r, _, t, rfl, hr, fun hm => h0 (List.mem_of_mem_drop hm), fun _ => by simp⟩

end RiscvKernel.Fs
