import RiscvKernel.Fs.Create

/-!
# Freeing the blocks of a file

The walk of `do_rm` over the index blocks of a file. `free_block` reads the superblock's sector to
the start of `TEMP_BUF`, where the walk has its first-level index block: from the first block it
frees on, the first 128 entries of that index block are the words of the superblock's sector.
`Named d f` are the numbers the walk passes to `free_block`, and `RmExact d f` says that they come
down to the blocks of the file.
-/

namespace RiscvKernel.Fs

open Lib Lib.Forest

/-! ## Clearing bits of the block map -/

/-- The bits `B` of the block map are cleared, and nothing else changes. `free_block` does not check
its argument: the bits from 131072 on lie in the inode table and in the blocks. -/
structure Cleared (B : ℕ → Prop) (d d' : Mem) : Prop where
  bit : ∀ c, bit d' bmapBase c = true ↔ Lib.bit d bmapBase c = true ∧ ¬ B c
  low : ∀ a < bmapBase, d' a = d a

/-- Every number in `B` is in `own` or its bit is clear already. -/
def Tame (own B : ℕ → Prop) (d : Mem) : Prop := ∀ c, B c → own c ∨ bit d bmapBase c = false

/-- A bit outside of `own` has been cleared. -/
def Harm (own : ℕ → Prop) (d d' : Mem) : Prop :=
  ∃ c, bit d bmapBase c = true ∧ ¬ own c ∧ bit d' bmapBase c = false

section Cleared

variable {B B' B'' own : ℕ → Prop} {d d' d'' : Mem}

theorem Cleared.refl (hB : ∀ c, ¬ B c) (d : Mem) : Cleared B d d :=
  ⟨fun c => ⟨fun h => ⟨h, hB c⟩, fun h => h.1⟩, fun _ _ => rfl⟩

theorem Cleared.trans (h : Cleared B d d') (h' : Cleared B' d' d'')
    (hB : ∀ c, B'' c ↔ B c ∨ B' c) : Cleared B'' d d'' where
  bit c := by
    rw [h'.bit, h.bit, hB]
    tauto
  low a ha := (h'.low a ha).trans (h.low a ha)

theorem Cleared.congr (h : Cleared B d d') (hB : ∀ c, B' c ↔ B c) : Cleared B' d d' :=
  ⟨fun c => by rw [h.bit, hB], h.low⟩

theorem Cleared.sector (h : Cleared B d d') {i : ℕ} (hi : i < 512) :
    d' (sbBase + i) = d (sbBase + i) :=
  h.low _ (by have := bases; omega)

theorem Cleared.sb (h : Cleared B d d') (hs : SbOn d) : SbOn d' :=
  fun i hi => (h.sector (by omega)).trans (hs i hi)

theorem Tame.mono (h : Tame own B d) (hB : ∀ c, B' c → B c) : Tame own B' d :=
  fun c hc => h c (hB c hc)

theorem Tame.clear (h : Tame own B d) (hc : Cleared B' d d') : Tame own B d' := by
  intro c h1
  refine (h c h1).imp_right fun h2 => ?_
  rw [← Bool.not_eq_true, hc.bit, h2]
  simp

theorem Cleared.harm (h : Cleared B d d') (ht : ¬ Tame own B d) : Harm own d d' := by
  unfold Tame at ht
  push Not at ht
  obtain ⟨c, hc, h1, h2⟩ := ht
  refine ⟨c, by simpa using h2, h1, ?_⟩
  rw [← Bool.not_eq_true, h.bit]
  exact fun hn => hn.2 hc

theorem Harm.clear (h : Harm own d d') (h' : Cleared B d' d'') : Harm own d d'' := by
  obtain ⟨c, h1, h2, h3⟩ := h
  refine ⟨c, h1, h2, ?_⟩
  rw [← Bool.not_eq_true, h'.bit, h3]
  simp

theorem Harm.of_clear (h' : Cleared B d d') (h : Harm own d' d'') : Harm own d d'' := by
  obtain ⟨c, h1, h2, h3⟩ := h
  exact ⟨c, ((h'.bit c).mp h1).1, h2, h3⟩

/-- A byte of which no set bit is cleared. -/
theorem Cleared.byte (h : Cleared B d d') {k : ℕ}
    (hk : ∀ i < 8, B (8 * k + i) → Lib.bit d bmapBase (8 * k + i) = false) :
    d' (bmapBase + k) = d (bmapBase + k) := by
  apply BitVec.eq_of_getLsbD_eq
  intro i hi
  have e : ∀ m : Mem, Lib.bit m bmapBase (8 * k + i) = (m (bmapBase + k)).getLsbD i := fun m => by
    unfold Lib.bit
    rw [show (8 * k + i) / 8 = k by omega, show (8 * k + i) % 8 = i by omega]
  rw [← e, ← e, Bool.eq_iff_iff, h.bit]
  refine ⟨fun h1 => h1.1, fun h1 => ⟨h1, fun h2 => ?_⟩⟩
  rw [hk i hi h2] at h1
  cases h1

end Cleared

/-- The blocks in `B` are unmarked; nothing else changes. -/
structure Freed (B : ℕ → Prop) (d d' : Mem) : Prop where
  bmap : ∀ c, bmap d' c = true ↔ Fs.bmap d c = true ∧ ¬ B c
  imap : ∀ m, imap d' m = imap d m
  inode : ∀ m, inode d' m = inode d m
  block : ∀ c, block d' c = block d c
  sb : SbOn d → SbOn d'

theorem Freed.congr {B B' : ℕ → Prop} {d d' : Mem} (h : Freed B d d')
    (hB : ∀ c, Fs.bmap d c = true → (B' c ↔ B c)) : Freed B' d d' :=
  ⟨fun c => by
    rw [h.bmap]
    exact and_congr_right fun hc => by rw [hB c hc], h.imap, h.inode, h.block, h.sb⟩

/-- Bits that are cleared one by one, all of them of blocks or clear already. -/
theorem Cleared.freed {B own : ℕ → Prop} {d d' : Mem} (h : Cleared B d d') (ht : Tame own B d)
    (hown : ∀ c, own c → c < 131072) : Freed B d d' := by
  have hhigh : ∀ a, itabBase ≤ a → d' a = d a := by
    intro a ha
    have hb := bases
    have := h.byte (k := a - bmapBase) fun i hi hc =>
      (ht _ hc).resolve_left fun ho => by have := hown _ ho; omega
    rwa [show bmapBase + (a - bmapBase) = a by omega] at this
  refine ⟨fun c => ?_, fun m => imap_congr fun hm => h.low _ (by have := bases; omega),
    fun m => inode_congr fun _ i _ => hhigh _ (by omega),
    fun c => block_congr fun i _ => hhigh _ (by have := bases; omega), h.sb⟩
  unfold Fs.bmap
  rw [Bool.and_eq_true, Bool.and_eq_true, h.bit]
  tauto

/-! ## `free_block` and `TEMP_BUF` -/

/-- `TEMP_BUF` after the superblock's sector of `d` has been read to it. -/
def sbTemp (d t : Mem) : Mem := fun i => if i < 512 then d (sbBase + i) else t i

/-- Word `k` of the superblock's sector. -/
def sbWord (d : Mem) (k : ℕ) : ℕ := word (fun i => d (sbBase + i)) (4 * k)

theorem word_sbTemp (d t : Mem) {a : ℕ} (ha : a % 4 = 0) :
    word (sbTemp d t) a = if a < 512 then sbWord d (a / 4) else word t a := by
  unfold sbWord
  split_ifs with h
  · rw [show 4 * (a / 4) = a by omega]
    exact word_congr fun i hi => if_pos (by omega)
  · exact word_congr fun i hi => if_neg (by omega)

theorem Cleared.sbWord {B : ℕ → Prop} {d d' : Mem} (h : Cleared B d d') {k : ℕ} (hk : k < 128) :
    sbWord d' k = sbWord d k :=
  word_congr fun i hi => h.sector (by omega)

theorem Cleared.sbTemp {B : ℕ → Prop} {d d' : Mem} (h : Cleared B d d') (t : Mem) :
    sbTemp d' t = sbTemp d t := by
  funext i
  unfold Fs.sbTemp
  split_ifs with hi
  · exact h.sector hi
  · rfl

theorem sbTemp_sbTemp (d t : Mem) : sbTemp d (sbTemp d t) = sbTemp d t := by
  funext i
  unfold sbTemp
  split_ifs <;> rfl

theorem readSb_eq {s : State} (hs : SbOk s) : readSb s = s.put s.disk (sbTemp s.disk s.temp) := by
  have h1 : (readSb s).sb = s.sb := by rw [readSb_sb hs.on, hs.sb]
  have h2 : (readSb s).temp = sbTemp s.disk s.temp := by
    funext i
    exact readSb_temp s i
  unfold readSb at h1 h2 ⊢
  unfold State.put
  dsimp only at h1 h2 ⊢
  rw [h1, h2]

/-- `free_block` clears its bit, and leaves the superblock's sector in `TEMP_BUF`. -/
theorem freeBlock_cleared {s : State} (hs : SbOk s) {b : ℕ} (hb : b < 2 ^ 32) :
    ∃ d, freeBlock s b = s.put d (sbTemp s.disk s.temp) ∧ Cleared (fun c => c = b) s.disk d := by
  refine ⟨clearBit s.disk bmapBase b, ?_, fun c => ?_, fun a ha => clearBit_out (by omega)⟩
  · rw [freeBlock_eq hs.on hb, readSb_eq hs]
    rfl
  · rw [bit_clearBit]
    simp [and_comm]

/-- `free_inode` clears one bit of the inode map. -/
theorem freeInode_put {s : State} (hs : SbOk s) {n : ℕ} (hn : n < 4096) :
    freeInode s n = s.put (clearBit s.disk imapBase n) (sbTemp s.disk s.temp) := by
  rw [freeInode_eq hs.on hn, readSb_eq hs]
  rfl

/-! ## One index block -/

/-- One of the first `n` entries is in use. -/
def InUse (w : ℕ → ℕ) (n : ℕ) : Prop := ∃ i < n, w i ≠ 0

instance (w : ℕ → ℕ) (n : ℕ) : Decidable (InUse w n) := by unfold InUse; infer_instance

theorem not_inUse {w : ℕ → ℕ} {n : ℕ} (h : ∀ i < n, w i = 0) : ¬ InUse w n := by
  rintro ⟨i, hi, hne⟩
  exact hne (h i hi)

theorem InUse.succ {w : ℕ → ℕ} {n : ℕ} (h : InUse w n) : InUse w (n + 1) := by
  obtain ⟨i, hi, hne⟩ := h
  exact ⟨i, by omega, hne⟩

/-- Entry `k` of the index block `w` at offset `o` of `TEMP_BUF` when the loop comes to it: behind
an entry in use, the words of the superblock's sector have replaced the first ones. -/
def seen (d : Mem) (o : ℕ) (w : ℕ → ℕ) (k : ℕ) : ℕ :=
  if o + 4 * k < 512 ∧ InUse w k then sbWord d ((o + 4 * k) / 4) else w k

/-- An index block at `TEMP_BUF + BLOCK_SIZE` is out of the way. -/
theorem seen_high (d : Mem) (w : ℕ → ℕ) (k : ℕ) : seen d 4096 w k = w k :=
  if_neg (by omega)

theorem Cleared.seen {B : ℕ → Prop} {d d' : Mem} (h : Cleared B d d') (o : ℕ) (w : ℕ → ℕ) (k : ℕ) :
    seen d' o w k = seen d o w k := by
  unfold Fs.seen
  split_ifs with hc
  · exact h.sbWord (by omega)
  · rfl

/-- The loop over the entries of one index block. -/
theorem freeEntries_spec {s : State} (hs : SbOk s) {o : ℕ} (ho : o % 4 = 0) {w : ℕ → ℕ}
    (hw : ∀ k < 1024, word s.temp (o + 4 * k) = w k) :
    ∃ d t, freeEntries s o = s.put d t ∧
      Cleared (fun c => c ≠ 0 ∧ ∃ k < 1024, seen s.disk o w k = c) s.disk d ∧
      ((t = s.temp ∧ ∀ k < 1024, w k = 0) ∨
        (t = sbTemp s.disk s.temp ∧ InUse w 1024)) := by
  refine loop_inv (P := fun i r => ∃ d t, r = s.put d t ∧
    Cleared (fun c => c ≠ 0 ∧ ∃ k < i, seen s.disk o w k = c) s.disk d ∧
    ((t = s.temp ∧ ∀ k < i, w k = 0) ∨ (t = sbTemp s.disk s.temp ∧ InUse w i))) ?_ ?_
  · rintro i _ - hi ⟨d, t, rfl, hC, ht⟩
    simp only [indirectBlockNum] at hi
    have hwi : word t (o + 4 * i) = seen s.disk o w i := by
      rcases ht with ⟨rfl, h0⟩ | ⟨rfl, h0⟩
      · rw [hw i (by omega), seen, if_neg fun h1 => not_inUse h0 h1.2]
      · rw [word_sbTemp _ _ (by omega), hw i (by omega), seen]
        exact if_congr (by simp [h0]) rfl rfl
    have hstep : ∀ c, (c ≠ 0 ∧ ∃ k < i + 1, seen s.disk o w k = c) ↔
        (c ≠ 0 ∧ ∃ k < i, seen s.disk o w k = c) ∨ (c ≠ 0 ∧ seen s.disk o w i = c) := by
      intro c
      simp only [Nat.lt_succ_iff_lt_or_eq, or_and_right, exists_or, exists_eq_left, and_or_left]
    simp only [State.put_temp, hwi]
    by_cases h0 : seen s.disk o w i = 0
    · rw [if_neg (not_not_intro h0)]
      refine ⟨d, t, rfl, hC.congr fun c => ?_, ?_⟩
      · rw [hstep, h0]
        exact or_iff_left fun h1 => h1.1 h1.2.symm
      · rcases ht with ⟨ht, h1⟩ | ⟨ht, h1⟩
        · refine Or.inl ⟨ht, fun k hk => ?_⟩
          by_cases e : k = i
          · rw [e, ← h0, seen, if_neg fun h2 => not_inUse h1 h2.2]
          · exact h1 k (by omega)
        · exact Or.inr ⟨ht, h1.succ⟩
    · rw [if_pos h0]
      obtain ⟨d', e, hC'⟩ := freeBlock_cleared (s := s.put d t) (hs.put (hC.sb hs.on) t)
        (b := seen s.disk o w i) (hwi ▸ word_lt _ _)
      simp only [State.put_disk, State.put_temp, State.put_put] at e hC'
      rw [hC.sbTemp] at e
      have ht' : sbTemp s.disk t = sbTemp s.disk s.temp := by
        rcases ht with ⟨rfl, -⟩ | ⟨rfl, -⟩
        · rfl
        · exact sbTemp_sbTemp _ _
      refine ⟨d', sbTemp s.disk t, e, hC.trans hC' fun c => ?_, Or.inr ⟨ht', ?_⟩⟩
      · rw [hstep]
        refine or_congr_right ⟨fun h1 => h1.2.symm, ?_⟩
        rintro rfl
        exact ⟨h0, rfl⟩
      · by_contra hn
        refine h0 ?_
        rw [seen, if_neg fun h1 => hn h1.2.succ]
        by_contra hne
        exact hn ⟨i, by omega, hne⟩
  · exact ⟨s.disk, s.temp, rfl, Cleared.refl (by rintro c ⟨-, k, hk, -⟩; omega) _,
      Or.inl ⟨rfl, fun k hk => by omega⟩⟩

/-! ## Two levels of index blocks -/

/-- The sector number of the block fits into 32 bits. -/
def Fits (b : ℕ) : Prop := 8 * b + 1049122 < 2 ^ 32

theorem readBlock_idx (s : State) {b : ℕ} (hb : Fits b) (o : ℕ) {k : ℕ} (hk : k < 1024) :
    word (readBlock s b o).temp (o + 4 * k) = idx s.disk b k := by
  unfold Fits at hb
  unfold idx
  rw [if_pos hk]
  refine word_congr fun i hi => ?_
  unfold readBlock block
  rw [if_pos (by omega), Nat.add_assoc]
  show blit s.temp o s.disk (512 * blockSector b) 4096 (o + (4 * k + i)) = _
  rw [blit_in (by omega)]
  congr 1
  unfold blockSector blkBase
  simp only [blockBase, inodeTableStart, fsStartSector, superblockSectors, inodeMapSectors,
    blockMapSectors, inodeTableSectors, numInodes, inodeSize, sectorSize, fsBlockNum, fsSize,
    blockSize, sectorsPerBlock]
  rw [u32_of_lt (n := b * _) (by omega), u32_of_lt (by omega)]
  omega

/-- A first-level entry when it is read again, to be freed itself. -/
def seenAgain (d : Mem) (v : ℕ → ℕ) (i : ℕ) : ℕ :=
  if i < 128 ∧ (InUse v i ∨ InUse (idx d (seen d 0 v i)) 1024) then sbWord d i
  else v i

/-- The numbers that the first `n` rounds over the first-level entries `v` pass to `free_block`. -/
def namedBelow (d : Mem) (v : ℕ → ℕ) (n c : ℕ) : Prop :=
  ∃ i < n, seen d 0 v i ≠ 0 ∧
    (c = seenAgain d v i ∨ (c ≠ 0 ∧ ∃ j < 1024, idx d (seen d 0 v i) j = c))

/-- One round of the loop over the first-level index block, for an entry in use. -/
theorem freeSecond_spec {s : State} (hs : SbOk s) {i b : ℕ} (hi : i < 1024)
    (hw : word s.temp (4 * i) = b) {x : ℕ → ℕ}
    (hx : ∀ j < 1024, word (readBlock s b 4096).temp (4096 + 4 * j) = x j) :
    ∃ d t, freeBlock (freeEntries (readBlock s b 4096) 4096)
        (word (freeEntries (readBlock s b 4096) 4096).temp (4 * i)) = s.put d t ∧
      Cleared (fun c => c = (if i < 128 ∧ InUse x 1024 then sbWord s.disk i else b) ∨
        (c ≠ 0 ∧ ∃ j < 1024, x j = c)) s.disk d ∧
      ∀ k < 1024, word t (4 * k) = if k < 128 then sbWord s.disk k else word s.temp (4 * k) := by
  have hrb : ∀ k < 1024, word (readBlock s b 4096).temp (4 * k) = word s.temp (4 * k) :=
    fun k hk => word_congr fun x hx => readBlock_temp_out s b (by omega)
  obtain ⟨d, t, e, hC, ht⟩ := freeEntries_spec (s := readBlock s b 4096) (hs.readBlock b 4096)
    (by omega) hx
  simp only [readBlock_disk, readBlock_put, seen_high] at e hC ht
  -- the entry is still there, or the superblock's word has replaced it
  have hwi : word t (4 * i) = if i < 128 ∧ InUse x 1024 then sbWord s.disk i else b := by
    rcases ht with ⟨rfl, h0⟩ | ⟨rfl, hne⟩
    · rw [hrb i hi, hw, if_neg fun h1 => not_inUse h0 h1.2]
    · rw [word_sbTemp _ _ (by omega), hrb i hi, hw, show 4 * i / 4 = i by omega]
      exact if_congr ⟨fun h1 => ⟨by omega, hne⟩, fun h1 => by omega⟩ rfl rfl
  have hst : sbTemp s.disk t = sbTemp s.disk (readBlock s b 4096).temp := by
    rcases ht with ⟨rfl, -⟩ | ⟨rfl, -⟩
    · rfl
    · exact sbTemp_sbTemp _ _
  obtain ⟨d', e', hC'⟩ := freeBlock_cleared (s := s.put d t) (hs.put (hC.sb hs.on) t)
    (b := word t (4 * i)) (word_lt _ _)
  simp only [State.put_disk, State.put_temp, State.put_put] at e' hC'
  rw [hC.sbTemp, hst] at e'
  refine ⟨d', sbTemp s.disk (readBlock s b 4096).temp, ?_, hC.trans hC' fun c => ?_,
    fun k hk => ?_⟩
  · rw [e, State.put_temp, e']
  · rw [hwi]
    exact Or.comm
  · rw [word_sbTemp _ _ (by omega), hrb k hk, show 4 * k / 4 = k by omega]
    by_cases h1 : k < 128
    · rw [if_pos (by omega), if_pos h1]
    · rw [if_neg (by omega), if_neg h1]

theorem namedBelow_succ (d : Mem) (v : ℕ → ℕ) (n c : ℕ) :
    namedBelow d v (n + 1) c ↔ namedBelow d v n c ∨ (seen d 0 v n ≠ 0 ∧
      (c = seenAgain d v n ∨ (c ≠ 0 ∧ ∃ j < 1024, idx d (seen d 0 v n) j = c))) := by
  constructor
  · rintro ⟨i, hi, h1⟩
    by_cases e : i = n
    · exact Or.inr (e ▸ h1)
    · exact Or.inl ⟨i, by omega, h1⟩
  · rintro (⟨i, hi, h1⟩ | h1)
    · exact ⟨i, by omega, h1⟩
    · exact ⟨n, by omega, h1⟩

/-- The words at the start of `TEMP_BUF` after `n` rounds over the first-level entries `v`. -/
def FirstLevel (d : Mem) (v : ℕ → ℕ) (n : ℕ) (t : Mem) : Prop :=
  ((∀ k < 1024, word t (4 * k) = v k) ∧ ∀ k < n, v k = 0) ∨
    ((∀ k < 1024, word t (4 * k) = if k < 128 then sbWord d k else v k) ∧ InUse v n)

theorem FirstLevel.seen {d : Mem} {v : ℕ → ℕ} {n : ℕ} {t : Mem} (h : FirstLevel d v n t)
    (hn : n < 1024) : word t (4 * n) = seen d 0 v n := by
  rcases h with ⟨h1, h2⟩ | ⟨h1, h2⟩
  · rw [h1 n hn, Fs.seen, if_neg fun h3 => not_inUse h2 h3.2]
  · rw [h1 n hn, Fs.seen, Nat.zero_add, show 4 * n / 4 = n by omega]
    exact if_congr ⟨fun h3 => ⟨by omega, h2⟩, fun h3 => by omega⟩ rfl rfl

theorem FirstLevel.skip {d : Mem} {v : ℕ → ℕ} {n : ℕ} {t : Mem} (h : FirstLevel d v n t)
    (hn : n < 1024) (h0 : word t (4 * n) = 0) : FirstLevel d v (n + 1) t := by
  rcases h with ⟨h1, h2⟩ | ⟨h1, h2⟩
  · refine Or.inl ⟨h1, fun k hk => ?_⟩
    by_cases e : k = n
    · rw [e, ← h1 n hn, h0]
    · exact h2 k (by omega)
  · exact Or.inr ⟨h1, h2.succ⟩

/-- The numbers `N` are what the walk should pass to `free_block`. When they do no harm outside of
`own`, their bits are clear; otherwise harm has been done, and from then on the walk may have read
changed index blocks. -/
def Walked (own N : ℕ → Prop) (d d' : Mem) : Prop :=
  (Tame own N d ∧ Cleared N d d') ∨ (¬ Tame own N d ∧ Harm own d d')

theorem Cleared.walked {own N : ℕ → Prop} {d d' : Mem} (h : Cleared N d d') : Walked own N d d' := by
  by_cases ht : Tame own N d
  · exact Or.inl ⟨ht, h⟩
  · exact Or.inr ⟨ht, h.harm ht⟩

/-- The loop over the first-level index block. -/
theorem freeSecondLevel_spec {s : State} (hs : SbOk s) {v : ℕ → ℕ} {own : ℕ → Prop}
    (hown : ∀ c, own c → c < 131072) (hw : ∀ k < 1024, word s.temp (4 * k) = v k) :
    ∃ d t, freeSecondLevel s = s.put d t ∧ (∃ B, Cleared B s.disk d) ∧
      ((∀ k < 1024, Fits (seen s.disk 0 v k)) →
        Walked own (namedBelow s.disk v 1024) s.disk d) := by
  have hinv := loop_inv (P := fun i r => ∃ d t, r = s.put d t ∧ (∃ B, Cleared B s.disk d) ∧
      ((∀ k < 1024, Fits (seen s.disk 0 v k)) →
        Walked own (namedBelow s.disk v i) s.disk d ∧
          (Tame own (namedBelow s.disk v i) s.disk → FirstLevel s.disk v i t)))
    (f := fun i s => if word s.temp (4 * i) ≠ 0 then
          freeBlock (freeEntries (readBlock s (word s.temp (4 * i)) 4096) 4096)
            (word (freeEntries (readBlock s (word s.temp (4 * i)) 4096) 4096).temp (4 * i))
        else s) (i := 0) (n := 1024) (s := s) ?_ ?_
  · obtain ⟨d, t, e, hB, h1⟩ := hinv
    rw [Nat.zero_add] at h1
    exact ⟨d, t, e, hB, fun hfit => (h1 hfit).1⟩
  · rintro i _ - hi ⟨d, t, rfl, ⟨B, hB⟩, hcase⟩
    have hmono : ∀ c, namedBelow s.disk v i c → namedBelow s.disk v (i + 1) c := fun c hc =>
      (namedBelow_succ _ _ _ _).mpr (Or.inl hc)
    have hsb := hB.sb hs.on
    rw [Nat.zero_add] at hi
    by_cases h0 : word (s.put d t).temp (4 * i) = 0
    · rw [if_neg (not_not_intro h0)]
      rw [State.put_temp] at h0
      refine ⟨d, t, rfl, ⟨B, hB⟩, fun hfit => ?_⟩
      obtain ⟨⟨hT, hC⟩ | ⟨hT, hH⟩, hF⟩ := hcase hfit
      swap
      · exact ⟨Or.inr ⟨fun h1 => hT (h1.mono hmono), hH⟩, fun h1 => absurd (h1.mono hmono) hT⟩
      have hseen := (hF hT).seen hi
      rw [h0] at hseen
      have hC2 : Cleared (namedBelow s.disk v (i + 1)) s.disk d := hC.congr fun c => by
        rw [namedBelow_succ]
        exact or_iff_left fun h1 => h1.1 hseen.symm
      exact ⟨hC2.walked, fun _ => (hF hT).skip hi h0⟩
    · rw [if_pos h0]
      rw [State.put_temp] at h0 ⊢
      obtain ⟨d', t', e, hC', ht'⟩ := freeSecond_spec (s := s.put d t) (hs.put hsb t) hi
        (b := word t (4 * i)) rfl (x := fun j => word (readBlock (s.put d t) (word t (4 * i))
          4096).temp (4096 + 4 * j)) (fun _ _ => rfl)
      simp only [State.put_disk, State.put_temp, State.put_put] at e hC' ht'
      refine ⟨d', t', e, ⟨_, hB.trans hC' fun c => Iff.rfl⟩, fun hfit => ?_⟩
      obtain ⟨⟨hT, hC⟩ | ⟨hT, hH⟩, hF⟩ := hcase hfit
      swap
      · exact ⟨Or.inr ⟨fun h1 => hT (h1.mono hmono), hH.clear hC'⟩,
          fun h1 => absurd (h1.mono hmono) hT⟩
      replace hF := hF hT
      -- nothing the walk reads has been changed so far
      have hfr := hC.freed hT hown
      have hseen := hF.seen hi
      have hx : ∀ j < 1024, word (readBlock (s.put d t) (word t (4 * i)) 4096).temp
          (4096 + 4 * j) = idx s.disk (seen s.disk 0 v i) j := fun j hj => by
        rw [hseen, readBlock_idx _ (hfit i hi) _ hj, State.put_disk, idx_congr (hfr.block _)]
      have hag : (if i < 128 ∧ InUse (fun j => word (readBlock (s.put d t)
          (word t (4 * i)) 4096).temp (4096 + 4 * j)) 1024 then sbWord d i else word t (4 * i)) = seenAgain s.disk v i := by
        have hex : InUse (fun j => word (readBlock (s.put d t) (word t (4 * i)) 4096).temp
            (4096 + 4 * j)) 1024 ↔ InUse (idx s.disk (seen s.disk 0 v i)) 1024 := by
          constructor
          · rintro ⟨j, hj, hne⟩
            exact ⟨j, hj, by rwa [← hx j hj]⟩
          · rintro ⟨j, hj, hne⟩
            exact ⟨j, hj, fun h1 => hne ((hx j hj).symm.trans h1)⟩
        rw [if_congr (and_congr_right fun _ => hex) rfl rfl, hseen]
        unfold seenAgain
        by_cases h1 : i < 128
        · rw [hC.sbWord h1]
          by_cases h2 : InUse (idx s.disk (seen s.disk 0 v i)) 1024
          · rw [if_pos ⟨h1, h2⟩, if_pos ⟨h1, Or.inr h2⟩]
          · rw [if_neg fun h3 => h2 h3.2]
            by_cases h3 : InUse v i
            · rw [if_pos ⟨h1, Or.inl h3⟩, seen, if_pos ⟨by omega, h3⟩, Nat.zero_add,
                show 4 * i / 4 = i by omega]
            · rw [if_neg (by tauto), seen, if_neg fun h4 => h3 h4.2]
        · rw [if_neg fun h3 => h1 h3.1, if_neg fun h3 => h1 h3.1, seen,
            if_neg fun h4 => h1 (by omega)]
      have hC2 : Cleared (namedBelow s.disk v (i + 1)) s.disk d' := by
        refine hC.trans hC' fun c => ?_
        rw [namedBelow_succ, hag]
        refine or_congr_right ⟨fun h1 => h1.2.imp_right fun ⟨hc, j, hj, h2⟩ =>
          ⟨hc, j, hj, by rw [hx j hj, h2]⟩, fun h1 => ⟨by rwa [← hseen], h1.imp_right
          fun ⟨hc, j, hj, h2⟩ => ⟨hc, j, hj, by rw [← hx j hj, h2]⟩⟩⟩
      refine ⟨hC2.walked, fun _ => Or.inr ⟨fun k hk => ?_, ?_⟩⟩
      · rw [ht' k hk]
        by_cases h2 : k < 128
        · rw [if_pos h2, if_pos h2, hC.sbWord h2]
        · rw [if_neg h2, if_neg h2]
          rcases hF with ⟨h3, -⟩ | ⟨h3, -⟩
          · exact h3 k hk
          · rw [h3 k hk, if_neg h2]
      · rcases hF with ⟨h3, -⟩ | ⟨-, h3⟩
        · exact ⟨i, by omega, by rwa [← h3 i hi]⟩
        · exact h3.succ
  · exact ⟨s.disk, s.temp, rfl, ⟨fun _ => False, Cleared.refl (fun _ h => h) _⟩, fun _ =>
      ⟨(Cleared.refl (by rintro c ⟨k, hk, -⟩; omega) _).walked, fun _ =>
        Or.inl ⟨hw, fun k hk => by omega⟩⟩⟩

/-! ## All blocks of a file -/

/-- The blocks of inode `f`: its data and index blocks. -/
def blocksOf (d : Mem) (f c : ℕ) : Prop :=
  c ≠ 0 ∧ ∃ i ks, Shape d (f, i) ks ∧ ref (cells d) (f, i) ks = c

/-- The numbers that `do_rm` passes to `free_block` for the direct pointers and the single indirect
block of inode `f`. -/
def NamedSingle (d : Mem) (f c : ℕ) : Prop :=
  (c ≠ 0 ∧ ∃ i < 10, (inode d f).ptr i = c) ∨
  ((inode d f).ptr 10 ≠ 0 ∧ (c = (inode d f).ptr 10 ∨
    (c ≠ 0 ∧ ∃ k < 1024, seen d 0 (idx d ((inode d f).ptr 10)) k = c)))

/-- The numbers that the walk of `do_rm` over inode `f` passes to `free_block`. -/
def Named (d : Mem) (f c : ℕ) : Prop :=
  NamedSingle d f c ∨ ((inode d f).ptr 11 ≠ 0 ∧ (c = (inode d f).ptr 11 ∨
    namedBelow d (idx d ((inode d f).ptr 11)) 1024 c))

/-- The first-level entries that the walk follows have sector numbers of 32 bits. -/
def WalkFits (d : Mem) (f : ℕ) : Prop :=
  (inode d f).ptr 11 ≠ 0 → ∀ k < 1024, Fits (seen d 0 (idx d ((inode d f).ptr 11)) k)

/-- The numbers passed to `free_block` come down to the blocks of the file: each of them is one of
these blocks or its bit is clear already, and every block of the file is among them. -/
structure RmExact (d : Mem) (f : ℕ) : Prop where
  fits : WalkFits d f
  tame : Tame (blocksOf d f) (Named d f) d
  all : ∀ c, blocksOf d f c → Named d f c

theorem blocksOf_lt {d : Mem} (h : BlkInv d) {f c : ℕ} (hc : blocksOf d f c) : c < 131072 := by
  obtain ⟨-, i, ks, hp, rfl⟩ := hc
  exact h.ref_lt hp

/-- Clearing the named bits frees the blocks of the file. -/
theorem RmExact.freed {d d' : Mem} {f : ℕ} (hx : RmExact d f) (h : BlkInv d)
    (hC : Cleared (Named d f) d d') : Freed (blocksOf d f) d d' := by
  refine (hC.freed hx.tame fun c => blocksOf_lt h).congr fun c hc => ⟨hx.all c, fun h1 => ?_⟩
  refine (hx.tame c h1).resolve_right ?_
  unfold bmap at hc
  rw [Bool.and_eq_true] at hc
  rw [hc.2]
  simp

/-- A file without index blocks. -/
theorem RmExact.of_direct {d : Mem} {f : ℕ} (hf : imap d f = true) (h10 : (inode d f).ptr 10 = 0)
    (h11 : (inode d f).ptr 11 = 0) : RmExact d f where
  fits h := absurd h11 h
  tame c hc := by
    rcases hc with (⟨hc, i, hi, e⟩ | ⟨h, -⟩) | ⟨h, -⟩
    · exact Or.inl ⟨hc, i, [], ⟨hf, by simp only; omega, by simp, by simp⟩, e⟩
    · exact absurd h10 h
    · exact absurd h11 h
  all c := by
    rintro ⟨hc, i, ks, ⟨-, hi, hlen, -⟩, e⟩
    simp only at hi hlen
    by_cases h1 : i < 10
    · obtain rfl : ks = [] := List.length_eq_zero_iff.mp (by omega)
      exact Or.inl (Or.inl ⟨hc, i, h1, e⟩)
    · have h0 : (inode d f).ptr i = 0 := by
        obtain rfl | rfl : i = 10 ∨ i = 11 := by omega
        · exact h10
        · exact h11
      have hz : ∀ ks, ref (cells d) (f, i) ks = 0 := by
        intro ks
        induction ks with
        | nil => exact h0
        | cons k ks ih => exact ref_cons_of_eq ih
      exact absurd (e.symm.trans (hz ks)) hc

section FreeAll

variable {s : State} (hs : SbOk s) (h : BlkInv s.disk) {f : ℕ} (hf : imap s.disk f = true)
  {node : Inode} (hptr : node.ptr = (inode s.disk f).ptr)

include hf in
theorem blocksOf_ptr {i : ℕ} (hi : i < 12) (h0 : (inode s.disk f).ptr i ≠ 0) :
    blocksOf s.disk f ((inode s.disk f).ptr i) :=
  ⟨h0, i, [], ⟨hf, hi, by simp, by simp⟩, rfl⟩

include hs hptr in
/-- The loop over the direct pointers. -/
theorem freeDirect_spec :
    ∃ d t, loop (fun i s => if node.direct i ≠ 0 then freeBlock s (node.direct i) else s) 0 10 s =
        s.put d t ∧
      Cleared (fun c => c ≠ 0 ∧ ∃ i < 10, (inode s.disk f).ptr i = c) s.disk d := by
  refine loop_inv (P := fun i r => ∃ d t, r = s.put d t ∧
    Cleared (fun c => c ≠ 0 ∧ ∃ k < i, (inode s.disk f).ptr k = c) s.disk d) ?_ ?_
  · rintro i _ - hi ⟨d, t, rfl, hC⟩
    have hd : node.direct i = (inode s.disk f).ptr i := by
      rw [← hptr, Inode.ptr_direct _ (by omega)]
    have hlt : node.direct i < 2 ^ 32 := node.lt.2.2.2.2.1 i
    simp only [hd] at hlt ⊢
    by_cases h0 : (inode s.disk f).ptr i = 0
    · rw [if_neg (not_not_intro h0)]
      refine ⟨d, t, rfl, hC.congr fun c => ⟨?_, fun ⟨hc, k, h1, h2⟩ => ⟨hc, k, by omega, h2⟩⟩⟩
      rintro ⟨hc, k, h1, h2⟩
      refine ⟨hc, k, ?_, h2⟩
      by_contra hge
      obtain rfl : k = i := by omega
      exact hc (h2.symm.trans h0)
    · rw [if_pos h0]
      obtain ⟨d', e, hC'⟩ := freeBlock_cleared (s := s.put d t) (hs.put (hC.sb hs.on) t) hlt
      refine ⟨d', _, e, hC.trans hC' fun c => ?_⟩
      constructor
      · rintro ⟨hc, k, h1, h2⟩
        by_cases hki : k = i
        · exact Or.inr (by rw [← h2, hki])
        · exact Or.inl ⟨hc, k, by omega, h2⟩
      · rintro (⟨hc, k, h1, h2⟩ | rfl)
        · exact ⟨hc, k, by omega, h2⟩
        · exact ⟨h0, i, by omega, rfl⟩
  · exact ⟨s.disk, s.temp, rfl, Cleared.refl (by rintro c ⟨-, k, hk, -⟩; omega) _⟩

include hs h hf hptr

/-- The direct pointers and the single indirect block. -/
theorem freeSingle_spec :
    ∃ d t, freeSingle s node = s.put d t ∧
      Cleared (NamedSingle s.disk f) s.disk d := by
  have hI : node.indirect = (inode s.disk f).ptr 10 := by rw [← hptr]; rfl
  obtain ⟨d1, t1, e1, hC1⟩ := freeDirect_spec hs hptr
  unfold freeSingle
  simp only [directBlockNum, blockSize, e1, hI]
  by_cases h0 : (inode s.disk f).ptr 10 = 0
  · rw [if_neg (not_not_intro h0)]
    exact ⟨d1, t1, rfl, hC1.congr fun c => or_iff_left fun h1 => h1.1 h0⟩
  · rw [if_pos h0]
    have hb := blocksOf_lt h (blocksOf_ptr hf (by omega) h0)
    -- the direct blocks are blocks of the file, so the index block is as it was
    have hfr := hC1.freed (show Tame (blocksOf s.disk f) _ _ from fun c ⟨hc, i, hi, e⟩ =>
      Or.inl (e ▸ blocksOf_ptr hf (by omega) (by rwa [e]))) (fun c => blocksOf_lt h)
    have hs1 : SbOk (readBlock (s.put d1 (fill t1 0 0#8 4096)) ((inode s.disk f).ptr 10) 0) :=
      (hs.put (hC1.sb hs.on) _).readBlock _ _
    obtain ⟨d, t, e, hC, -⟩ := freeEntries_spec hs1 (o := 0) rfl
      (w := idx s.disk ((inode s.disk f).ptr 10))
      (fun k hk => by
        rw [readBlock_word _ hb 0 hk]
        exact idx_congr (hfr.block _) _)
    simp only [readBlock_disk, readBlock_put, State.put_disk, State.put_put, hC1.seen] at e hC
    obtain ⟨d', e', hC'⟩ := freeBlock_cleared (s := s.put d t)
      (hs.put (hC.sb (hC1.sb hs.on)) t) (b := (inode s.disk f).ptr 10) (by omega)
    simp only [State.put_disk, State.put_temp, State.put_put] at e' hC'
    refine ⟨d', sbTemp d t, ?_, (hC1.trans hC fun c => Iff.rfl).trans hC' fun c => ?_⟩
    · simp only [State.setTemp_eq, State.put_temp, State.put_disk, State.put_put, e]
      exact e'
    · unfold NamedSingle
      rw [or_assoc]
      exact or_congr_right ⟨fun ⟨_, h1⟩ => h1.symm, fun h1 => ⟨h0, h1.symm⟩⟩

/-- What the walk does to the block map. -/
theorem freeBlocks_spec (hfit : WalkFits s.disk f) :
    ∃ d t, freeBlocks s node = s.put d t ∧ SbOn d ∧
      Walked (blocksOf s.disk f) (Named s.disk f) s.disk d := by
  have hD : node.double = (inode s.disk f).ptr 11 := by rw [← hptr]; rfl
  have hown : ∀ c, blocksOf s.disk f c → c < 131072 := fun c => blocksOf_lt h
  obtain ⟨d2, t2, e2, hC2⟩ := freeSingle_spec hs h hf hptr
  unfold freeBlocks
  simp only [e2, hD]
  by_cases h0 : (inode s.disk f).ptr 11 = 0
  · rw [if_neg (not_not_intro h0)]
    have hC : Cleared (Named s.disk f) s.disk d2 := hC2.congr fun c =>
      or_iff_left fun h1 => h1.1 h0
    exact ⟨d2, t2, rfl, hC2.sb hs.on, hC.walked⟩
  · rw [if_pos h0]
    have hb := hown _ (blocksOf_ptr hf (by omega) h0)
    have hs2 : SbOk (readBlock (s.put d2 t2) ((inode s.disk f).ptr 11) 0) :=
      (hs.put (hC2.sb hs.on) _).readBlock _ _
    obtain ⟨d3, t3, e3, ⟨B, hB⟩, hW⟩ := freeSecondLevel_spec hs2 (v := idx d2 ((inode s.disk f).ptr 11))
      hown (fun k hk => by
        have := readBlock_word (s.put d2 t2) hb 0 hk
        rwa [Nat.zero_add] at this)
    simp only [readBlock_disk, readBlock_put, State.put_disk, State.put_put] at e3 hB hW
    obtain ⟨d4, e4, hC4⟩ := freeBlock_cleared (s := s.put d3 t3)
      (hs.put (hB.sb (hC2.sb hs.on)) t3) (b := (inode s.disk f).ptr 11) (by omega)
    simp only [State.put_disk, State.put_temp, State.put_put] at e4 hC4
    refine ⟨d4, sbTemp d3 t3, by rw [e3, e4], hC4.sb (hB.sb (hC2.sb hs.on)), ?_⟩
    by_cases hT2 : Tame (blocksOf s.disk f) (NamedSingle s.disk f) s.disk
    swap
    · exact Or.inr ⟨fun h1 => hT2 (h1.mono fun c hc => Or.inl hc), ((hC2.harm hT2).clear hB).clear hC4⟩
    -- so far nothing but the file's bits has changed, and the walk reads the index blocks as they were
    have hfr := hC2.freed hT2 hown
    have hidx : idx d2 = idx s.disk := by
      funext b j
      exact idx_congr (hfr.block b) j
    have hseen : seen d2 0 = seen s.disk 0 := by
      funext w k
      exact hC2.seen 0 w k
    have hnb : ∀ v n c, namedBelow d2 v n c ↔ namedBelow s.disk v n c := by
      intro v n c
      unfold namedBelow
      refine exists_congr fun i => and_congr_right fun _ => ?_
      have : seenAgain d2 v i = seenAgain s.disk v i := by
        unfold seenAgain
        rw [hidx, hseen]
        split_ifs with hc
        · exact hC2.sbWord hc.1
        · rfl
      rw [this, hidx, hseen]
    rw [hidx, hseen] at hW
    rcases hW (hfit h0) with ⟨hT3, hC3⟩ | ⟨hT3, hH⟩
    swap
    · refine Or.inr ⟨fun h1 => hT3 ((h1.mono fun c hc => ?_).clear hC2),
        (hH.of_clear hC2).clear hC4⟩
      exact Or.inr ⟨h0, Or.inr ((hnb _ _ _).mp hc)⟩
    have hC : Cleared (Named s.disk f) s.disk d4 := by
      refine (hC2.trans hC3 fun c => Iff.rfl).trans hC4 fun c => ?_
      unfold Named
      rw [hnb, or_assoc]
      exact or_congr_right ⟨fun ⟨_, h1⟩ => h1.symm, fun h1 => ⟨h0, h1.symm⟩⟩
    exact hC.walked

/-- When the numbers come down to the file's blocks, exactly these are freed. -/
theorem freeBlocks_exact (hx : RmExact s.disk f) :
    ∃ d t, freeBlocks s node = s.put d t ∧ Freed (blocksOf s.disk f) s.disk d := by
  obtain ⟨d, t, e, -, hW⟩ := freeBlocks_spec hs h hf hptr hx.fits
  exact ⟨d, t, e, hx.freed h (hW.resolve_right fun h1 => h1.1 hx.tame).2⟩

end FreeAll

end RiscvKernel.Fs
