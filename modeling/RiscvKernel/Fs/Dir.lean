import RiscvKernel.Fs.Search

/-!
# Directories

The entries of a directory stand in its logical blocks, 204 to a block. A slot is a directory, a
logical block and a position in it; `ent d` gives the entry of every slot. The three searches of
the code (`findInodeByName`, `appendDentry`, `removeDentry`) read the slots in order; the two
writers change one slot.
-/

namespace RiscvKernel.Fs

open Lib Lib.Forest

/-! ## Slots and entries -/

/-- A place for an entry: directory, logical block and position. -/
abbrev Slot := ℕ × ℕ × ℕ

def isDir (d : Mem) (n : ℕ) : Prop := (inode d n).type = 1

instance (d : Mem) (n : ℕ) : Decidable (isDir d n) := by unfold isDir; infer_instance

/-- The number of logical blocks of a directory. -/
def dirBlocks (d : Mem) (p : ℕ) : ℕ := (inode d p).size / 4096

/-- The entry at `a`: a free one starts with a NUL. -/
def dentryAt (m : Mem) (a : ℕ) : Option (CStr × ℕ) :=
  if m a = 0#8 then none else some (cstr m a 16, word m (a + 16))

/-- The entry of a slot. -/
def ent (d : Mem) (σ : Slot) : Option (CStr × ℕ) :=
  if imap d σ.1 = true ∧ (inode d σ.1).type = 1 ∧ σ.2.1 < dirBlocks d σ.1 ∧ σ.2.2 < 204 then
    dentryAt (fileBlock d σ.1 σ.2.1) (20 * σ.2.2)
  else none

/-- A well-formed directory: whole blocks, at least one, all of them in place, and names of at most
15 bytes. -/
structure DirOk (d : Mem) (p : ℕ) : Prop where
  size : (inode d p).size = 4096 * dirBlocks d p
  pos : 0 < dirBlocks d p
  full : ∀ l < dirBlocks d p, pblk d p l ≠ 0
  names : ∀ σ x n, σ.1 = p → ent d σ = some (x, n) → x.length < 16

theorem dentryAt_congr {m m' : Mem} {a a' : ℕ} (h : ∀ i < 20, m (a + i) = m' (a' + i)) :
    dentryAt m a = dentryAt m' a' := by
  have h0 := h 0 (by omega)
  rw [Nat.add_zero, Nat.add_zero] at h0
  have hc : cstr m a 16 = cstr m' a' 16 := cstr_congr fun i hi => h i (by omega)
  have hw : word m (a + 16) = word m' (a' + 16) := word_congr fun i hi => by
    rw [Nat.add_assoc, Nat.add_assoc]
    exact h (16 + i) (by omega)
  unfold dentryAt
  rw [h0, hc, hw]

theorem ent_of {d : Mem} {p l j : ℕ} (hp : imap d p = true) (hd : isDir d p)
    (hl : l < dirBlocks d p) (hj : j < 204) :
    ent d (p, l, j) = dentryAt (fileBlock d p l) (20 * j) := if_pos ⟨hp, hd, hl, hj⟩

theorem ent_some {d : Mem} {σ : Slot} {e : CStr × ℕ} (h : ent d σ = some e) :
    imap d σ.1 = true ∧ isDir d σ.1 ∧ σ.2.1 < dirBlocks d σ.1 ∧ σ.2.2 < 204 := by
  unfold ent at h
  split_ifs at h with hc
  exact hc

/-- The entries of a directory whose inode and contents are unchanged. -/
theorem ent_congr {d d' : Mem} {σ : Slot} (hm : imap d' σ.1 = imap d σ.1)
    (hi : inode d' σ.1 = inode d σ.1)
    (hb : imap d σ.1 = true → fileBlock d' σ.1 σ.2.1 = fileBlock d σ.1 σ.2.1) :
    ent d' σ = ent d σ := by
  by_cases h : imap d σ.1 = true
  · unfold ent dirBlocks
    rw [hm, hi, hb h]
  · unfold ent
    rw [if_neg (by rw [hm]; tauto), if_neg (by tauto)]

theorem Only.ent_ne {p : ℕ} {d d' : Mem} (h : Only p d d') {σ : Slot} (hσ : σ.1 ≠ p) :
    ent d' σ = ent d σ :=
  ent_congr (h.imap _) (h.inode_ne _ hσ) fun hm => h.block_ne _ hσ hm _

theorem dirOk_congr {d d' : Mem} {q : ℕ} (hi : inode d' q = inode d q)
    (hb : ∀ l, pblk d' q l = pblk d q l) (he : ∀ σ, σ.1 = q → ent d' σ = ent d σ)
    (h : DirOk d q) : DirOk d' q where
  size := by unfold dirBlocks; rw [hi]; exact h.size
  pos := by unfold dirBlocks; rw [hi]; exact h.pos
  full l hl := by
    unfold dirBlocks at hl
    rw [hi] at hl
    rw [hb]
    exact h.full l hl
  names σ x n hσ e := by
    rw [he σ hσ] at e
    exact h.names σ x n hσ e

theorem Only.dirOk_ne {p : ℕ} {d d' : Mem} (h : Only p d d') {q : ℕ} (hq : q ≠ p)
    (hm : Fs.imap d q = true) (hd : DirOk d q) : DirOk d' q :=
  dirOk_congr (h.inode_ne q hq) (h.pblk_ne q hq hm) (fun _ hσ => h.ent_ne (hσ ▸ hq)) hd

/-- A directory has no more blocks than the disk. -/
theorem DirOk.blocks_le {d : Mem} (h : BlkInv d) {p : ℕ} (hp : imap d p = true) (hd : DirOk d p) :
    dirBlocks d p ≤ 131072 := by
  have hinj : Function.Injective fun l : Fin (dirBlocks d p) =>
      (⟨pblk d p l, h.pblk_lt hp l⟩ : Fin 131072) := by
    intro l k e
    simp only [Fin.mk.injEq] at e
    exact Fin.ext (h.pblk_inj hp hp (hd.full l l.2) e).2
  simpa using Fintype.card_le_of_injective _ hinj

theorem DirOk.numBlocks_eq {d : Mem} {p : ℕ} (hd : DirOk d p) (hk : dirBlocks d p ≤ 131072)
    {node : Inode} (hn : node.size = (inode d p).size) : numBlocks node = dirBlocks d p := by
  unfold numBlocks
  rw [hn, hd.size]
  simp only [blockSize]
  rw [u32_of_lt (by omega)]
  omega

/-! ## Looking up a name -/

section Lookup

variable {s : State} {p : ℕ} (hp : imap s.disk p = true) (hd : isDir s.disk p)
  (hok : DirOk s.disk p)

include hp hd hok in
theorem hasName_iff {x : CStr} (hx : 0#8 ∉ x) {l j : ℕ} (hl : l < dirBlocks s.disk p)
    (hj : j < 204) {t : Mem} (ht : ∀ i < 4096, t i = fileBlock s.disk p l i) :
    hasName t x (20 * j) = true ↔ ∃ m, ent s.disk (p, l, j) = some (x, m) := by
  have hc : cstr t (20 * j) 16 = cstr (fileBlock s.disk p l) (20 * j) 16 :=
    cstr_congr fun i hi => ht _ (by omega)
  have h0 : t (20 * j) = fileBlock s.disk p l (20 * j) := ht _ (by omega)
  have he := ent_of hp hd hl hj
  unfold hasName
  rw [decide_eq_true_iff]
  by_cases hz : fileBlock s.disk p l (20 * j) = 0#8
  · have : ent s.disk (p, l, j) = none := by rw [he, dentryAt, if_pos hz]
    simp [h0, hz, this]
  · rw [dentryAt, if_neg hz] at he
    have hlen := hok.names _ _ _ rfl he
    rw [strcmp_eq_zero_of_short hx (by rw [hc]; exact hlen), hc, he, h0]
    simp only [ne_eq, hz, not_false_eq_true, true_and, Option.some.injEq, Prod.mk.injEq]
    exact ⟨fun e => ⟨_, e, rfl⟩, fun ⟨_, e, _⟩ => e⟩

include hp hd in
theorem isFree_iff {l j : ℕ} (hl : l < dirBlocks s.disk p) (hj : j < 204) :
    isFree (fileBlock s.disk p l) (20 * j) = true ↔ ent s.disk (p, l, j) = none := by
  rw [ent_of hp hd hl hj, dentryAt]
  unfold isFree
  rw [decide_eq_true_iff]
  split_ifs with hz
  · simp [hz]
  · simp [hz]

variable (hk : dirBlocks s.disk p ≤ 131072) (hpath : ∀ l < dirBlocks s.disk p, PathOk s.disk p l)

include hp hd hok hk hpath

/-- The search for a name: its slot, with its block in `TEMP_BUF`, or no slot has it. -/
theorem searchName_spec {x : CStr} (hx : 0#8 ∉ x) (node : Inode)
    (hptr : node.ptr = (inode s.disk p).ptr) (hsize : node.size = (inode s.disk p).size) :
    (∃ l j m t, ent s.disk (p, l, j) = some (x, m) ∧
      (∀ i < 4096, t i = fileBlock s.disk p l i) ∧
      searchDentry (fun t => hasName t x) p 0 (numBlocks node) node s =
        (some (pblk s.disk p l, j), node, s.put s.disk t)) ∨
    ((∀ σ m, σ.1 = p → ent s.disk σ ≠ some (x, m)) ∧
      ∃ t, searchDentry (fun t => hasName t x) p 0 (numBlocks node) node s =
        (none, node, s.put s.disk t)) := by
  rw [hok.numBlocks_eq hk hsize]
  obtain ⟨t, e, ht⟩ := searchDentry_eq hptr (k := dirBlocks s.disk p) (by unfold maxBlocks; omega)
    hpath (P := fun t => hasName t x) (fun l hl _ j hj t ht => Bool.eq_iff_iff.mpr
      ((hasName_iff hp hd hok hx hl hj ht).trans
        (hasName_iff hp hd hok hx hl hj fun _ _ => rfl).symm))
  cases hf : firstSlot s.disk p (dirBlocks s.disk p) (fun t => hasName t x) with
  | some σ =>
    obtain ⟨l, j⟩ := σ
    obtain ⟨hl, -, hj, h1⟩ := firstSlot_some hf
    obtain ⟨m, hm⟩ := (hasName_iff hp hd hok hx hl hj fun _ _ => rfl).mp h1
    rw [hf] at e
    exact Or.inl ⟨l, j, m, t, hm, ht l j hf, e⟩
  | none =>
    rw [hf] at e
    refine Or.inr ⟨?_, t, e⟩
    rintro ⟨q, l, j⟩ m rfl he
    obtain ⟨-, -, h3, h4⟩ := ent_some he
    exact firstSlot_none hf h3 (hok.full l h3) h4
      ((hasName_iff hp hd hok hx h3 h4 fun _ _ => rfl).mpr ⟨m, he⟩)

/-- `find_inode_by_name` in a directory: the object the name stands for, or -1. -/
theorem findInodeByName_spec {x : CStr} (hx : 0#8 ∉ x) :
    (∃ σ m t, σ.1 = p ∧ ent s.disk σ = some (x, m) ∧
      findInodeByName s p x = (m, s.put s.disk t)) ∨
    ((∀ σ m, σ.1 = p → ent s.disk σ ≠ some (x, m)) ∧
      ∃ t, findInodeByName s p x = (neg1, s.put s.disk t)) := by
  have hp' := imap_lt hp
  unfold findInodeByName
  simp only [getInode_eq s hp']
  have hd' : (inode s.disk p).type = fdDir := hd
  rw [if_neg (not_not_intro hd')]
  rcases searchName_spec hp hd hok hk hpath hx (inode s.disk p) rfl rfl with
    ⟨l, j, m, t, hm, ht, e⟩ | ⟨hn, t, e⟩
  · refine Or.inl ⟨(p, l, j), m, t, rfl, hm, ?_⟩
    obtain ⟨-, -, hl, hj⟩ := ent_some hm
    simp only at hl hj
    have he := ent_of hp hd hl hj
    rw [hm, dentryAt] at he
    rw [e]
    simp only [State.put_temp]
    split_ifs at he with hz
    rw [Option.some.injEq, Prod.mk.injEq] at he
    rw [he.2]
    congr 1
    exact word_congr fun i hi => ht _ (by simp only [dentrySize, maxFnameLen]; omega)
  · refine Or.inr ⟨hn, t, ?_⟩
    rw [e]

end Lookup

/-- `find_inode_by_name` in something else. -/
theorem findInodeByName_of_not_dir {s : State} {p : ℕ} (hp : p < 4096) (hd : ¬ isDir s.disk p)
    (x : CStr) : findInodeByName s p x = (neg1, s) := by
  unfold findInodeByName
  simp only [getInode_eq s hp]
  exact if_pos hd

/-! ## Changing one entry -/

/-- The bytes of a directory entry in a memory. -/
theorem dentryAt_mkDentry (m : Mem) {x : CStr} (hx : 0#8 ∉ x) (h1 : 0 < x.length)
    (h2 : x.length < 16) {n : ℕ} (hn : n < 2 ^ 32) :
    dentryAt (mkDentry m x n) 0 = some (x, n) := by
  have hb : ∀ i < 16, mkDentry m x n i = strcpy m 0 x i := fun i hi =>
    putLe_out (by simp only [maxFnameLen]; omega)
  have hc : cstr (mkDentry m x n) 0 16 = x :=
    (cstr_congr fun i hi => hb _ (by omega)).trans (cstr_strcpy (m := m) hx h2)
  have hw : word (mkDentry m x n) (0 + 16) = n := by
    rw [Nat.zero_add]
    unfold mkDentry
    rw [word_putWord_self, Nat.mod_eq_of_lt hn]
  have h0 : mkDentry m x n 0 ≠ 0#8 := by
    obtain ⟨c, cs, rfl⟩ := List.exists_cons_of_length_pos h1
    rw [hb 0 (by omega)]
    have := strcpy_in (m := m) (a := 0) (s := c :: cs) (Nat.zero_le _)
    rw [Nat.zero_add] at this
    rw [this]
    intro e
    exact hx (by rw [← e]; simp)
  rw [dentryAt, if_neg h0, hc, hw]

section Change

variable {d : Mem} (h : BlkInv d) {p : ℕ} (hp : imap d p = true)

include hp in
/-- Writing back the inode of a directory, or of any object, with the same type and size. -/
theorem ent_putMeta {x : Inode} (hx : x.ptr = (inode d p).ptr) (ht : x.type = (inode d p).type)
    (hs : x.size = (inode d p).size) (σ : Slot) : ent (putInode d p x) σ = ent d σ := by
  by_cases hm : imap d σ.1 = true
  · have e1 : (inode (putInode d p x) σ.1).type = (inode d σ.1).type := by
      by_cases e : σ.1 = p
      · rw [e, inode_putInode_self _ _ (imap_lt hp), ht]
      · rw [inode_putInode_of_ne _ _ e]
    have e2 : (inode (putInode d p x) σ.1).size = (inode d σ.1).size := by
      by_cases e : σ.1 = p
      · rw [e, inode_putInode_self _ _ (imap_lt hp), hs]
      · rw [inode_putInode_of_ne _ _ e]
    unfold ent dirBlocks
    rw [imap_putInode, e1, e2, fileBlock_putMeta hp hx hm]
  · unfold ent
    rw [if_neg (by rw [imap_putInode]; tauto), if_neg (by tauto)]

variable (hd : isDir d p)

include h hp hd

/-- Rewriting a directory block except for one slot changes that slot only. -/
theorem ent_putSlot {l j : ℕ} (hl : l < dirBlocks d p) (hj : j < 204) (h0 : pblk d p l ≠ 0)
    {t : Mem} (ht : ∀ i < 4096, i < 20 * j ∨ 20 * j + 20 ≤ i → t i = fileBlock d p l i) (σ : Slot) :
    ent (putBlock d (pblk d p l) t 0) σ =
      if σ = (p, l, j) then dentryAt t (20 * j) else ent d σ := by
  by_cases hm : imap d σ.1 = true
  swap
  · have hne : σ ≠ (p, l, j) := by rintro rfl; exact hm hp
    rw [if_neg hne]
    unfold ent
    rw [if_neg (by rw [imap_putBlock]; tauto), if_neg (by tauto)]
  · obtain ⟨q, k, i⟩ := σ
    by_cases hqk : q = p ∧ k = l
    · obtain ⟨rfl, rfl⟩ := hqk
      have hb : ∀ x < 4096, fileBlock (putBlock d (pblk d q k) t 0) q k x = t x := fun x hx => by
        rw [fileBlock_putData_self h hp h0 t 0 hx, Nat.zero_add]
      have hd' : isDir (putBlock d (pblk d q k) t 0) q := by
        unfold isDir; rw [inode_putBlock]; exact hd
      have hl' : k < dirBlocks (putBlock d (pblk d q k) t 0) q := by
        unfold dirBlocks; rw [inode_putBlock]; exact hl
      have hp' : imap (putBlock d (pblk d q k) t 0) q = true := by rwa [imap_putBlock]
      by_cases hi : i < 204
      · rw [ent_of hp' hd' hl' hi]
        by_cases hij : i = j
        · subst hij
          rw [if_pos rfl]
          exact dentryAt_congr fun x hx => hb _ (by omega)
        · rw [if_neg (by simpa using hij), ent_of hp hd hl hi]
          exact dentryAt_congr fun x hx => (hb _ (by omega)).trans (ht _ (by omega) (by omega))
      · rw [if_neg (by simp; omega)]
        unfold ent
        rw [if_neg (by simp only; tauto), if_neg (by simp only; tauto)]
    · rw [if_neg (by simpa using fun e1 e2 => absurd ⟨e1, e2⟩ hqk)]
      exact ent_congr (imap_putBlock _ _ _ _ _) (inode_putBlock _ _ _ _ _)
        fun hm => fileBlock_putData h hp h0 t 0 hm hqk

end Change

/-! ## `append_dentry` -/

/-- One free slot of directory `p` holds entry `e` now, and nothing else changes. -/
structure Linked (p : ℕ) (σ : Slot) (e : CStr × ℕ) (d d' : Mem) : Prop where
  only : Only p d d'
  owner : σ.1 = p
  free : ent d σ = none
  ent : ent d' = Function.update (ent d) σ (some e)
  ok : DirOk d' p

/-- The names of a directory that has got one more entry. -/
theorem names_update {d d' : Mem} {p : ℕ} {σ : Slot} {e : CStr × ℕ} (he : e.1.length < 16)
    (hent : ent d' = Function.update (ent d) σ (some e))
    (h : ∀ σ x n, σ.1 = p → ent d σ = some (x, n) → x.length < 16) :
    ∀ σ x n, σ.1 = p → ent d' σ = some (x, n) → x.length < 16 := by
  intro τ x n hτ hx
  rw [hent, Function.update_apply] at hx
  split_ifs at hx with hc
  · cases hx
    exact he
  · exact h τ x n hτ hx

section Append

variable {s : State} (hs : SbOk s) (h : BlkInv s.disk) {p : ℕ} (hp : imap s.disk p = true)
  (hd : isDir s.disk p) (hok : DirOk s.disk p) {e : CStr × ℕ} (he : e.1.length < 16)

include h hp hd hok he in
/-- The entry goes to a free slot. -/
theorem linked_inPlace {l j : ℕ} (hl : l < dirBlocks s.disk p) (hj : j < 204)
    (hfree : ent s.disk (p, l, j) = none) {t : Mem}
    (ht : ∀ i < 4096, i < 20 * j ∨ 20 * j + 20 ≤ i → t i = fileBlock s.disk p l i)
    (hte : dentryAt t (20 * j) = some e) {y : Inode} (hy1 : y.ptr = (inode s.disk p).ptr)
    (hy2 : y.type = (inode s.disk p).type) (hy3 : y.size = (inode s.disk p).size) :
    Linked p (p, l, j) e s.disk (putInode (putBlock s.disk (pblk s.disk p l) t 0) p y) := by
  have hp' := imap_lt hp
  have h0 := hok.full l hl
  have o1 := only_putData h hp h0 t 0
  have hpm : imap (putBlock s.disk (pblk s.disk p l) t 0) p = true := by rwa [o1.imap]
  have hi : inode (putBlock s.disk (pblk s.disk p l) t 0) p = inode s.disk p := by
    rw [inode_putBlock]
  have o2 := only_putMeta o1.inv hpm (x := y) (by rw [hi, hy1])
  have hent : ent (putInode (putBlock s.disk (pblk s.disk p l) t 0) p y) =
      Function.update (ent s.disk) (p, l, j) (some e) := by
    funext σ
    rw [ent_putMeta hpm (by rw [hi, hy1]) (by rw [hi, hy2]) (by rw [hi, hy3]),
      ent_putSlot h hp hd hl hj h0 ht, Function.update_apply, hte]
  have hsz : (inode (putInode (putBlock s.disk (pblk s.disk p l) t 0) p y) p).size =
      (inode s.disk p).size := by rw [inode_putInode_self _ _ hp', hy3]
  refine ⟨o1.trans o2, rfl, hfree, hent, ?_, ?_, ?_, names_update he hent hok.names⟩
  · unfold dirBlocks; rw [hsz]; exact hok.size
  · unfold dirBlocks; rw [hsz]; exact hok.pos
  · intro k hk
    unfold dirBlocks at hk
    rw [hsz] at hk
    rw [pblk_putMeta hpm (by rw [hi, hy1]) hpm, pblk_putData h hp h0 t 0 hp]
    exact hok.full k hk

include h hp hd hok he in
/-- The directory grows by one block, and the entry goes to its first slot. -/
theorem linked_grow {d : Mem} (hg : Grow p (dirBlocks s.disk p) s.disk d)
    (hb : pblk d p (dirBlocks s.disk p) ≠ 0) {t : Mem} (hte : dentryAt t 0 = some e)
    (ht : ∀ i, 20 ≤ i → i < 4096 → t i = 0#8) {y : Inode} (hy1 : y.ptr = (inode d p).ptr)
    (hy2 : y.type = 1) (hy3 : y.size = 4096 * (dirBlocks s.disk p + 1)) :
    Linked p (p, dirBlocks s.disk p, 0) e s.disk
      (putInode (putBlock d (pblk d p (dirBlocks s.disk p)) t 0) p y) := by
  have hp' := imap_lt hp
  have hpd : imap d p = true := by rwa [hg.imap]
  have o0 := hg.only h
  have o1 := only_putData hg.inv hpd hb t 0
  generalize hk : dirBlocks s.disk p = k at *
  have hpm : imap (putBlock d (pblk d p k) t 0) p = true := by rwa [o1.imap]
  have hi : inode (putBlock d (pblk d p k) t 0) p = inode d p := by rw [inode_putBlock]
  have hy1' : y.ptr = (inode (putBlock d (pblk d p k) t 0) p).ptr := by rw [hi, hy1]
  have o2 := only_putMeta o1.inv hpm hy1'
  have o := (o0.trans o1).trans o2
  generalize hd' : putInode (putBlock d (pblk d p k) t 0) p y = d' at *
  have hy : inode d' p = y := by rw [← hd', inode_putInode_self _ _ hp']
  have hdb : dirBlocks d' p = k + 1 := by
    unfold dirBlocks
    rw [hy, hy3]
    omega
  have hfree : ent s.disk (p, k, 0) = none := by
    unfold ent
    rw [if_neg]
    rintro ⟨-, -, h3, -⟩
    simp only [hk, lt_self_iff_false] at h3
  -- the old blocks are as before, and the new one holds the entry
  have hold : ∀ l < k, fileBlock d' p l = fileBlock s.disk p l := by
    intro l hl
    rw [← hd', fileBlock_putMeta hpm hy1' hpm, fileBlock_putData hg.inv hpd hb t 0 hpd (by omega),
      hg.fileBlock_eq h hp (Or.inl (by omega))]
  have hnew : ∀ x < 4096, fileBlock d' p k x = t x := by
    intro x hx
    rw [← hd', fileBlock_putMeta hpm hy1' hpm, fileBlock_putData_self hg.inv hpd hb t 0 hx,
      Nat.zero_add]
  have hm' : imap d' p = true := by rwa [o.imap]
  have hdir' : isDir d' p := by unfold isDir; rw [hy, hy2]
  have hent : ent d' = Function.update (ent s.disk) (p, k, 0) (some e) := by
    funext σ
    rw [Function.update_apply]
    obtain ⟨q, l, j⟩ := σ
    by_cases hq : q = p
    · subst hq
      by_cases hl : l < k + 1 ∧ j < 204
      · rw [ent_of hm' hdir' (by omega) hl.2]
        by_cases hlk : l = k
        · subst hlk
          by_cases hj : j = 0
          · subst hj
            rw [if_pos rfl, ← hte]
            exact dentryAt_congr fun x hx => by rw [hnew _ (by omega)]
          · rw [if_neg (by simpa using hj), dentryAt, if_pos]
            · unfold ent
              rw [if_neg]
              rintro ⟨-, -, h3, -⟩
              simp only [hk, lt_self_iff_false] at h3
            · rw [hnew _ (by omega)]
              exact ht _ (by omega) (by omega)
        · rw [if_neg (by simp [hlk]), hold l (by omega), ent_of hp hd (by omega) hl.2]
      · rw [if_neg (by simp; omega)]
        unfold ent
        rw [if_neg (by simp only [hdb]; tauto), if_neg (by simp only [hk]; omega)]
    · rw [if_neg (by simp [hq])]
      exact o.ent_ne hq
  refine ⟨o, rfl, hfree, hent, ?_, ?_, ?_, names_update he hent hok.names⟩
  · rw [hdb, hy, hy3]
  · omega
  · intro l hl
    rw [hdb] at hl
    rw [← hd', pblk_putMeta hpm hy1' hpm, pblk_putData hg.inv hpd hb t 0 hpd]
    by_cases hlk : l = k
    · rwa [hlk]
    · rw [hg.pblk_ne p l hp (by omega)]
      exact hok.full l (by omega)

include hs h hp hd hok he

/-- `append_dentry`, and the write of the directory's inode by its caller. -/
theorem appendDentry_spec (node : Inode) (hptr : node.ptr = (inode s.disk p).ptr)
    (htype : node.type = (inode s.disk p).type) (hsize : node.size = (inode s.disk p).size)
    {dm : Mem} (hdm : dentryAt dm 0 = some e)
    (hf : (appendDentry s node p dm).2.allocFailed = false) :
    ∃ d t node' σ, appendDentry s node p dm = (node', s.put d t) ∧
      node'.type = node.type ∧ node'.nlinks = node.nlinks ∧
      ∀ y : Inode, y.ptr = node'.ptr → y.type = node'.type → y.size = node'.size →
        Linked p σ e s.disk (putInode d p y) := by
  have hk := hok.blocks_le h hp
  have hkm : dirBlocks s.disk p < maxBlocks := by unfold maxBlocks; omega
  have hnum : numBlocks (inode s.disk p) = dirBlocks s.disk p := hok.numBlocks_eq hk rfl
  cases hfs : freeSlot s.disk p with
  | some σ =>
    obtain ⟨l, j⟩ := σ
    obtain ⟨hl, -, hj, hfree⟩ := firstSlot_some hfs
    rw [hnum] at hl
    rw [isFree_iff hp hd hl hj] at hfree
    obtain ⟨t, e1⟩ := appendDentry_slot hptr hsize (by omega)
      (fun l hl => h.pathOk hp (by omega)) hfs dm
    refine ⟨_, t, node, (p, l, j), e1, rfl, rfl, fun y hy1 hy2 hy3 => ?_⟩
    rw [← putBlock_writeSlot hj fun _ _ => rfl]
    refine linked_inPlace h hp hd hok he hl hj hfree (fun i _ hi' => blit_out (by omega)) ?_
      (by rw [hy1, hptr]) (by rw [hy2, htype]) (by rw [hy3, hsize])
    rw [← hdm]
    exact dentryAt_congr fun i hi => blit_in hi
  | none =>
    by_cases hr : need s.disk p (numBlocks (inode s.disk p)) ≤ freeCount s.disk
    swap
    · obtain ⟨d, t, node', e1, -⟩ := appendDentry_short hptr hsize hs h hp (by omega) hfs
        (by omega) dm
      rw [e1] at hf
      cases hf
    obtain ⟨d, t, u, node', e1, hu, hz, hg, hb, hno, -⟩ :=
      appendDentry_room hptr hsize hs h hp (by omega) hfs hr dm
    rw [hnum] at e1 hg hb
    refine ⟨_, t, _, (p, dirBlocks s.disk p, 0), e1, ?_, ?_, fun y hy1 hy2 hy3 =>
      linked_grow h hp hd hok he hg hb ?_ hz (by rw [hy1, Inode.ptr_setSize, hno.ptr]) ?_ ?_⟩
    · rw [Inode.type_setSize, hno.sameMeta.type]
    · rw [Inode.nlinks_setSize, hno.sameMeta.nlinks]
    · rw [← hdm]
      exact dentryAt_congr fun i hi => by rw [Nat.zero_add]; exact hu i hi
    · rw [hy2, Inode.type_setSize, hno.sameMeta.type, htype]
      exact hd
    · simp only [blockSize] at hy3
      rw [hy3, Inode.size_setSize, hno.sameMeta.size, hsize, hok.size, u32_of_lt (by omega)]
      omega

end Append

theorem searchDentry_failed {P : Mem → ℕ → Bool} {p n i : ℕ} {node : Inode} {s : State}
    (h : (searchDentry P p i n node s).2.2.allocFailed = false) : s.allocFailed = false := by
  induction n generalizing i node s with
  | zero => exact h
  | succ n ih =>
    rw [searchDentry] at h
    dsimp only at h
    split at h
    · exact getPhysicalBlockId_failed (ih h)
    · split at h
      · rw [readBlock_allocFailed] at h
        exact getPhysicalBlockId_failed h
      · have := ih h
        rw [readBlock_allocFailed] at this
        exact getPhysicalBlockId_failed this

theorem appendDentry_failed {s : State} {node : Inode} {p : ℕ} {dm : Mem}
    (h : (appendDentry s node p dm).2.allocFailed = false) : s.allocFailed = false := by
  unfold appendDentry at h
  dsimp only at h
  split at h
  · rename_i e
    rw [writeBlock_allocFailed, State.setTemp_eq, State.put_allocFailed] at h
    exact searchDentry_failed (by rw [e]; exact h)
  · rename_i e
    split at h
    · exact searchDentry_failed (by rw [e]; exact getPhysicalBlockId_failed h)
    · rw [writeBlock_allocFailed, State.setTemp_eq, State.put_allocFailed] at h
      exact searchDentry_failed (by rw [e]; exact getPhysicalBlockId_failed h)

/-! ## `remove_dentry` -/

/-- The disk without the entry of a slot: the first byte of the entry is zero. -/
def unlinkSlot (d : Mem) (σ : Slot) : Mem :=
  Function.update d (blkBase + 4096 * pblk d σ.1 σ.2.1 + 20 * σ.2.2) 0#8

theorem putBlock_unlink {d t : Mem} {b j : ℕ} (hj : j < 204) (ht : ∀ i < 4096, t i = block d b i) :
    putBlock d b (Function.update t (20 * j) 0#8) 0 =
      Function.update d (blkBase + 4096 * b + 20 * j) 0#8 := by
  funext a
  by_cases ha : blkBase + 4096 * b ≤ a ∧ a < blkBase + 4096 * b + 4096
  · obtain ⟨i, rfl⟩ := Nat.exists_eq_add_of_le ha.1
    unfold putBlock
    rw [blit_in (by omega), Nat.zero_add]
    by_cases hi : i = 20 * j
    · rw [hi, Function.update_self, Function.update_self]
    · rw [Function.update_of_ne hi, Function.update_of_ne (by omega), ht i (by omega), block,
        if_pos (by omega)]
  · unfold putBlock
    rw [blit_out (by omega), Function.update_of_ne (by omega)]

/-- The slot of an entry of directory `p` is free now, and nothing else changes. -/
structure Unlinked (p : ℕ) (σ : Slot) (d d' : Mem) : Prop where
  only : Only p d d'
  owner : σ.1 = p
  ent : ent d' = Function.update (ent d) σ none
  ok : DirOk d' p

section Unlink

variable {d : Mem} (h : BlkInv d) {p : ℕ} (hp : imap d p = true) (hd : isDir d p)
  (hok : DirOk d p) {l j : ℕ} (hl : l < dirBlocks d p) (hj : j < 204)

include hj in
/-- Removing an entry changes one data block. -/
theorem observe_unlinkSlot :
    (∀ m, imap (unlinkSlot d (p, l, j)) m = imap d m) ∧
    (∀ c, bmap (unlinkSlot d (p, l, j)) c = bmap d c) ∧
    (∀ m, inode (unlinkSlot d (p, l, j)) m = inode d m) ∧
    (∀ c ≠ pblk d p l, block (unlinkSlot d (p, l, j)) c = block d c) ∧
    ∀ i < 4096, block (unlinkSlot d (p, l, j)) (pblk d p l) i =
      if i = 20 * j then 0#8 else block d (pblk d p l) i := by
  have e := putBlock_unlink (d := d) (t := block d (pblk d p l)) (b := pblk d p l) hj
    (fun _ _ => rfl)
  have e' : unlinkSlot d (p, l, j) =
      putBlock d (pblk d p l) (Function.update (block d (pblk d p l)) (20 * j) 0#8) 0 := e.symm
  rw [e']
  refine ⟨fun m => imap_putBlock .., fun c => bmap_putBlock .., fun m => inode_putBlock ..,
    fun c hc => block_putBlock_of_ne _ _ _ hc, fun i hi => ?_⟩
  rw [block_putBlock_self _ _ _ _ hi, Nat.zero_add, Function.update_apply]

include h hp hd hok hl hj

theorem unlinked_unlinkSlot : Unlinked p (p, l, j) d (unlinkSlot d (p, l, j)) := by
  have h0 := hok.full l hl
  have e : unlinkSlot d (p, l, j) =
      putBlock d (pblk d p l) (Function.update (fileBlock d p l) (20 * j) 0#8) 0 :=
    (putBlock_unlink hj fun _ _ => rfl).symm
  rw [e]
  have ho := only_putData h hp h0 (Function.update (fileBlock d p l) (20 * j) 0#8) 0
  have hi : inode (putBlock d (pblk d p l) (Function.update (fileBlock d p l) (20 * j) 0#8) 0) p =
      inode d p := by rw [inode_putBlock]
  have hent : ent (putBlock d (pblk d p l) (Function.update (fileBlock d p l) (20 * j) 0#8) 0) =
      Function.update (ent d) (p, l, j) none := by
    funext σ
    rw [ent_putSlot h hp hd hl hj h0 (fun i hi hi' => ?_), Function.update_apply, dentryAt,
      Function.update_self, if_pos rfl]
    rw [Function.update_of_ne (by omega)]
  refine ⟨ho, rfl, hent, ?_, ?_, ?_, ?_⟩
  · unfold dirBlocks; rw [hi]; exact hok.size
  · unfold dirBlocks; rw [hi]; exact hok.pos
  · intro k hk
    unfold dirBlocks at hk
    rw [hi] at hk
    rw [pblk_putData h hp h0 _ 0 hp]
    exact hok.full k hk
  · intro σ y k hσ hy
    rw [hent, Function.update_apply] at hy
    split_ifs at hy
    exact hok.names σ y k hσ hy

end Unlink

/-- `remove_dentry` of a name the directory has. -/
theorem removeDentry_spec {s : State} (h : BlkInv s.disk) {p : ℕ} (hp : imap s.disk p = true)
    (hd : isDir s.disk p) (hok : DirOk s.disk p) {x : CStr} (hx : 0#8 ∉ x) (node : Inode)
    (hptr : node.ptr = (inode s.disk p).ptr) (hsize : node.size = (inode s.disk p).size)
    {τ : Slot} {n : ℕ} (hτ : τ.1 = p) (hn : ent s.disk τ = some (x, n)) :
    ∃ σ m t, ent s.disk σ = some (x, m) ∧
      removeDentry s node p x = (node, s.put (unlinkSlot s.disk σ) t) ∧
      Unlinked p σ s.disk (unlinkSlot s.disk σ) := by
  unfold removeDentry
  have hk := hok.blocks_le h hp
  rcases searchName_spec hp hd hok hk (fun l hl => h.pathOk hp (by unfold maxBlocks; omega)) hx node
    hptr hsize with ⟨l, j, m, t, hm, ht, e⟩ | ⟨hno, -⟩
  swap
  · exact absurd hn (hno τ n hτ)
  obtain ⟨-, -, hl, hj⟩ := ent_some hm
  simp only at hl hj
  have ht' : ∀ i < 4096, t i = block s.disk (pblk s.disk p l) i := ht
  simp only [e, State.setTemp_eq, State.put_temp, State.put_disk, State.put_put,
    writeBlock_eq _ (h.pblk_lt hp l), dentrySize, putBlock_unlink hj ht']
  exact ⟨(p, l, j), m, _, hm, rfl, unlinked_unlinkSlot h hp hd hok hl hj⟩

end RiscvKernel.Fs
