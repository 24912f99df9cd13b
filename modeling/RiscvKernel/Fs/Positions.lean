import RiscvKernel.Fs.Effect
import RiscvKernel.Fs.Rounds

/-!
# File positions

The position of a descriptor and the size of a file are `uint32_t`, lengths and results are `int`. `do_lseek` checks no
result, `do_read` takes the number of bytes that are left as an `int`, and `do_write` adds to the position modulo
`2 ^ 32`. `Call.InRange` is the condition under which nothing of this shows, and `positions_exact` says that every call of
a run in which the calls meet it does what its arguments say as integers.

A file may be larger here than `SysWf` allows, so `FilesOk` is the part of the invariant that the calls on descriptors
need. It is `SysWf` as long as all the files are small.
-/

namespace RiscvKernel.Fs

open Lib Lib.Run

/-! ## The invariant -/

/-- All files are smaller than `2 ^ 31` bytes. -/
def SizesOk (d : Mem) : Prop := ∀ n, imap d n = true → ¬ isDir d n → (inode d n).size < 2 ^ 31

/-- The invariant of the calls on descriptors. -/
structure FilesOk (y : Sys) : Prop where
  valid : y.sbValid = true
  sb : y.sb = mkfsSb
  on : SbOn y.disk
  blk : BlkInv y.disk
  fds : ∀ fd < numFdescs, (y.fdescArray fd).used ≠ 0 →
    (y.fdescArray fd).pos < 2 ^ 32 ∧ imap y.disk (y.fdescArray fd).inodeNum = true
  wf : SizesOk y.disk → SysWf y

/-- The calls that move the position of a descriptor. -/
def Call.Moves : Call → Prop
  | .fs _ _ (.read _ _ _) => True
  | .fs _ _ (.write _ _ _) => True
  | .fs _ _ (.lseek _ _ _) => True
  | _ => False

/-- The other calls meet their conditions, and they are made while all files are small. -/
def Call.Settled (y : Sys) (c : Call) : Prop := ¬ c.Moves → SizesOk y.disk ∧ c.Ok y ∧ c.Safe y

theorem FilesOk.of_wf {y : Sys} (h : SysWf y)
    (hp : ∀ fd < numFdescs, (y.fdescArray fd).used ≠ 0 → (y.fdescArray fd).pos < 2 ^ 32) : FilesOk y :=
  ⟨h.valid, h.sb, h.wf.sb, h.wf.blk, fun fd hlt hu => ⟨hp fd hlt hu, (h.fds fd hlt hu).1⟩, fun _ => h⟩

theorem Sys.Start.filesOk {y : Sys} (hy : y.Start) : FilesOk y :=
  .of_wf hy.wf fun fd _ hu => absurd (hy.closed fd) hu

section Steps

variable {y : Sys} (h : FilesOk y) {p : ℕ} {stack : Mem} {fd : ℤ}

include h

theorem FilesOk.sbOk : SbOk (y.load p stack) := ⟨h.valid, h.sb, h.on⟩

theorem FilesOk.isOpen (ho : (y.load p stack).isOpen fd) :
    (y.fdescArray fd.toNat).pos < 2 ^ 32 ∧ imap y.disk (y.fdescArray fd.toNat).inodeNum = true := by
  obtain ⟨h1, h2, h3⟩ := ho
  exact h.fds fd.toNat ((Int.toNat_lt h1).mpr h2) h3

/-- A call that moves the position of a descriptor and does not write. -/
theorem FilesOk.setPos (ho : (y.load p stack).isOpen fd) (t : Mem) {pos : ℕ} (hpos : pos < 2 ^ 32) :
    FilesOk (y.save p (((y.load p stack).put y.disk t).setPos fd pos)) where
  valid := h.valid
  sb := h.sb
  on := h.on
  blk := h.blk
  fds i hi hu := by
    change (Function.update y.fdescArray fd.toNat _ i).used ≠ 0 at hu
    show (Function.update y.fdescArray fd.toNat _ i).pos < 2 ^ 32 ∧
      imap y.disk (Function.update y.fdescArray fd.toNat _ i).inodeNum = true
    by_cases e : i = fd.toNat
    · rw [e, Function.update_self]
      exact ⟨hpos, (h.isOpen ho).2⟩
    · rw [Function.update_of_ne e] at hu ⊢
      exact h.fds i hi hu
  wf hs := (h.wf hs).setPos ho pos ((h.wf hs).quiet p stack t) fun _ hm _ => ⟨hm, Iff.rfl⟩

/-- A call that does nothing. -/
theorem FilesOk.quiet : FilesOk (y.save p (y.load p stack)) :=
  ⟨h.valid, h.sb, h.on, h.blk, h.fds, fun hs => (h.wf hs).quiet p stack _⟩

theorem FilesOk.lseek (offset whence : ℤ) : FilesOk (y.save p (doLseek (y.load p stack) fd offset whence).2) := by
  have hof : ∀ x : ℤ, ofInt x < 2 ^ 32 := fun x => by
    unfold ofInt
    omega
  by_cases ho : (y.load p stack).isOpen fd
  · have hs := fun x => h.setPos ho (y.proc p).temp (hof x)
    unfold doLseek
    rw [if_neg (not_not_intro ho)]
    dsimp only
    split_ifs
    · exact hs _
    · exact hs _
    · exact hs _
    · exact h.quiet
  · have e : doLseek (y.load p stack) fd offset whence = (-1, y.load p stack) := if_pos ho
    rw [e]
    exact h.quiet

theorem FilesOk.read (buff : Mem) (length : ℤ) : FilesOk (y.save p (doRead (y.load p stack) fd buff length).2.2) := by
  by_cases ho : (y.load p stack).isOpen fd ∧ (y.fdescArray fd.toNat).mode ≠ oWronly
  · obtain ⟨hpos, hl⟩ := h.isOpen ho.1
    obtain ⟨k, t, buff', hk, e, -⟩ := doRead_bytes ho.1 hl h.blk ho.2 buff length
    rw [e]
    refine h.setPos ho.1 t ?_
    have hsz := (inode y.disk (y.fdescArray fd.toNat).inodeNum).lt.2.2.1
    change k = (if (inode y.disk (y.fdescArray fd.toNat).inodeNum).size - (y.fdescArray fd.toNat).pos < 2 ^ 31 then
      readLen (inode y.disk (y.fdescArray fd.toNat).inodeNum).size (y.fdescArray fd.toNat).pos length else 0) at hk
    show (y.fdescArray fd.toNat).pos + k < 2 ^ 32
    unfold readLen at hk
    split_ifs at hk <;> omega
  · rw [doRead_refused ho]
    exact h.quiet

/-- A write that loses no pointer. -/
theorem FilesOk.write {Q : ℕ → Prop} {B len k : ℕ} {buff d : Mem} {r : ℤ × State} (ho : (y.load p stack).isOpen fd)
    (hE : WriteEnd Q B (y.load p stack) fd buff len k d r) : FilesOk (y.save p r.2) := by
  obtain ⟨hpos, hl⟩ := h.isOpen ho
  have hO : Only (y.fdescArray fd.toNat).inodeNum y.disk d := hE.landed.stored.only
  have hty : ∀ m, (inode d m).type = (inode y.disk m).type := fun m => by
    by_cases e : m = (y.fdescArray fd.toNat).inodeNum
    · rw [e]
      exact hE.type
    · rw [hO.inode_ne m e]
  have hdir : ∀ m, isDir d m ↔ isDir y.disk m := fun m => by
    unfold isDir
    rw [hty]
  have hk : Keeps (fun _ => False) y.disk d := fun m hm _ => ⟨by rw [hO.imap]; exact hm, hdir m⟩
  obtain ⟨t, hsave⟩ : ∃ t, y.save p r.2 = y.save p (((y.load p stack).put d t).setPos fd
      (u32 ((y.fdescArray fd.toNat).pos + k))) := by
    obtain ⟨t, e | e⟩ := hE.state
    · exact ⟨t, by rw [e]; rfl⟩
    · exact ⟨t, by rw [e]; rfl⟩
  rw [hsave]
  refine ⟨h.valid, h.sb, hO.sb h.on, hO.inv, fun i hi hu => ?_, fun hs => ?_⟩
  · change (Function.update y.fdescArray fd.toNat _ i).used ≠ 0 at hu
    show (Function.update y.fdescArray fd.toNat _ i).pos < 2 ^ 32 ∧
      imap d (Function.update y.fdescArray fd.toNat _ i).inodeNum = true
    rw [hO.imap]
    by_cases e : i = fd.toNat
    · rw [e, Function.update_self]
      exact ⟨Nat.mod_lt _ (by norm_num), hl⟩
    · rw [Function.update_of_ne e] at hu ⊢
      exact h.fds i hi hu
  · -- all files are small now, so they were before
    change SizesOk d at hs
    have hw : SysWf y := h.wf fun m hm hd => by
      have := hs m (by rw [hO.imap]; exact hm) fun hc => hd ((hdir m).mp hc)
      by_cases e : m = (y.fdescArray fd.toNat).inodeNum
      · rw [e] at this ⊢
        exact hE.size_ge.trans_lt this
      · rwa [hO.inode_ne m e] at this
    obtain ⟨h1, h2⟩ := hw.isOpen ho
    have hwf := (wf_write hw.wf h2 hO hE.type hE.nlinks
      (hs _ (by rw [hO.imap]; exact h1) fun hc => h2 ((hdir _).mp hc))).1
    exact hw.setPos ho _ (hw.put p stack hwf hk (fun _ => id) fun _ _ _ => id) hk

/-- The other calls, while all files are small. -/
theorem FilesOk.other {c : Call} (hc : ¬ c.Moves) (hset : c.Settled y) : FilesOk (y.step c) := by
  obtain ⟨hs, hok, hsafe⟩ := hset hc
  have hw := h.wf hs
  refine .of_wf (step_wf hw hok hsafe) fun i hi hu => ?_
  have hold := fun hu => (h.fds i hi hu).1
  by_cases hfds : c.OnFds
  swap
  · rw [step_fdescArray hw hok hsafe hfds] at hu ⊢
    exact hold hu
  cases c with
  | spawn p child temp => exact hfds.elim
  | fs p stack op =>
    cases op with
    | mkdir path => exact hfds.elim
    | touch path => exact hfds.elim
    | ln src dst => exact hfds.elim
    | rm path => exact hfds.elim
    | rmdir path => exact hfds.elim
    | cd path => exact hfds.elim
    | «open» path mode =>
      change ((doOpen (y.load p stack) path mode).2.fdescArray i).used ≠ 0 at hu
      show ((doOpen (y.load p stack) path mode).2.fdescArray i).pos < 2 ^ 32
      rcases open_fdescArray hw hok with e | ⟨-, n, e⟩
      · rw [e] at hu ⊢
        exact hold hu
      · rw [e] at hu ⊢
        rw [Function.update_apply] at hu ⊢
        split_ifs at hu ⊢
        · norm_num
        · exact hold hu
    | read fd buff length => exact absurd trivial hc
    | write fd buff length => exact absurd trivial hc
    | close fd =>
      change ((doClose (y.load p stack) fd).2.fdescArray i).used ≠ 0 at hu
      show ((doClose (y.load p stack) fd).2.fdescArray i).pos < 2 ^ 32
      unfold doClose at hu ⊢
      split_ifs at hu ⊢
      · change (Function.update y.fdescArray fd.toNat _ i).used ≠ 0 at hu
        show (Function.update y.fdescArray fd.toNat _ i).pos < 2 ^ 32
        rw [Function.update_apply] at hu ⊢
        split_ifs at hu ⊢
        · norm_num
        · exact hold hu
      · exact hold hu
    | lseek fd offset whence => exact absurd trivial hc

/-- Every step in which no write loses a pointer keeps the invariant. -/
theorem FilesOk.step {c : Call} (hc : c.Settled y)
    (hw : ∀ p stack fd buff length, c = .fs p stack (.write fd buff length) → (y.load p stack).isOpen fd →
      (y.fdescArray fd.toNat).mode ≠ oRdonly →
      ∃ Q B k d, WriteEnd Q B (y.load p stack) fd buff length.toNat k d (doWrite (y.load p stack) fd buff length)) :
    FilesOk (y.step c) := by
  by_cases hm : c.Moves
  swap
  · exact h.other hm hc
  cases c with
  | spawn p child temp => exact hm.elim
  | fs p stack op =>
    cases op with
    | mkdir path => exact hm.elim
    | touch path => exact hm.elim
    | ln src dst => exact hm.elim
    | rm path => exact hm.elim
    | rmdir path => exact hm.elim
    | cd path => exact hm.elim
    | «open» path mode => exact hm.elim
    | close fd => exact hm.elim
    | read fd buff length => exact h.read buff length
    | lseek fd offset whence => exact h.lseek offset whence
    | write fd buff length =>
      show FilesOk (y.save p (doWrite (y.load p stack) fd buff length).2)
      by_cases ho : (y.load p stack).isOpen fd ∧ (y.fdescArray fd.toNat).mode ≠ oRdonly
      · obtain ⟨Q, B, k, d, hE⟩ := hw p stack fd buff length rfl ho.1 ho.2
        exact h.write ho.1 hE
      · rw [doWrite_refused ho]
        exact h.quiet

end Steps

/-! ## Calls as integers -/

/-- The position that `do_lseek` is asked for, as an integer. -/
def seekTarget (s : State) (fd offset whence : ℤ) : Option ℤ :=
  if whence = 0 then some offset
  else if whence = 1 then some ((s.fdescArray fd.toNat).pos + offset)
  else if whence = 2 then some ((inode s.disk (s.fdescArray fd.toNat).inodeNum).size + offset)
  else none

/-- The call does what its arguments say as integers: `do_lseek` goes to the position it is asked for, if that is below
`2 ^ 31`, and fails without effect otherwise; `do_read` delivers what is left, up to its length; and `do_write` changes
no byte of the file that it does not cover. -/
def Call.PosExact (y : Sys) : Call → Prop
  | .fs p stack (.lseek fd offset whence) => (y.load p stack).isOpen fd →
    doLseek (y.load p stack) fd offset whence =
      match seekTarget (y.load p stack) fd offset whence with
      | some r => if 0 ≤ r ∧ r < 2 ^ 31 then (r, (y.load p stack).setPos fd r.toNat) else (-1, y.load p stack)
      | none => (-1, y.load p stack)
  | .fs p stack (.read fd buff length) => (y.load p stack).isOpen fd → (y.fdescArray fd.toNat).mode ≠ oWronly →
    let n := (y.fdescArray fd.toNat).inodeNum
    let pos := (y.fdescArray fd.toNat).pos
    0 ≤ length → pos < (inode y.disk n).size →
      (doRead (y.load p stack) fd buff length).1 = min length ((inode y.disk n).size - pos) ∧
      ∀ i : ℕ, (i : ℤ) < min length ((inode y.disk n).size - pos) →
        (doRead (y.load p stack) fd buff length).2.1 i = fileByte y.disk n (pos + i)
  | .fs p stack (.write fd buff length) => (y.load p stack).isOpen fd → (y.fdescArray fd.toNat).mode ≠ oRdonly →
    let n := (y.fdescArray fd.toNat).inodeNum
    let pos := (y.fdescArray fd.toNat).pos
    let d := (doWrite (y.load p stack) fd buff length).2.disk
    0 ≤ length → (inode y.disk n).size ≤ (inode d n).size ∧
      ∀ o < (inode y.disk n).size, ((o : ℤ) < pos ∨ pos + length ≤ o) → fileByte d n o = fileByte y.disk n o
  | _ => True

/-- The rounds of the write lose no pointer and do not wrap before its end, and a block that they allocate holds zeros in
the bytes that belong to the file already. -/
def KeepsBytes (s : State) (fd : ℤ) (buff : Mem) (length : ℤ) : Prop :=
  let n := (s.fdescArray fd.toNat).inodeNum
  WriteRounds (fun total pos node s' => RoundRoom pos node s' ∧
    RoundOk (fun o => o < (inode s.disk n).size) (2 ^ 32) n length.toNat total pos node s') s fd buff length

instance (s : State) (fd : ℤ) (buff : Mem) (length : ℤ) : Decidable (KeepsBytes s fd buff length) :=
  inferInstanceAs (Decidable (WriteRounds ..))

/-- The target of `do_lseek` is in range, fewer than `2 ^ 31` bytes are left for `do_read`, and `do_write` keeps the
bytes. -/
def Call.ArgsOk (y : Sys) : Call → Prop
  | .fs p stack (.lseek fd offset whence) => (y.load p stack).isOpen fd →
    ∀ r ∈ seekTarget (y.load p stack) fd offset whence, 0 ≤ r ∧ r < 2 ^ 31
  | .fs p stack (.read fd _ length) => (y.load p stack).isOpen fd → (y.fdescArray fd.toNat).mode ≠ oWronly →
    0 < length → (inode y.disk (y.fdescArray fd.toNat).inodeNum).size - (y.fdescArray fd.toNat).pos < 2 ^ 31
  | .fs p stack (.write fd buff length) => (y.load p stack).isOpen fd → (y.fdescArray fd.toNat).mode ≠ oRdonly →
    KeepsBytes (y.load p stack) fd buff length
  | _ => True

/-- The condition on a step. -/
def Call.InRange (y : Sys) (c : Call) : Prop := c.ArgsOk y ∧ c.Settled y

/-- `do_lseek` in range. -/
theorem doLseek_exact {s : State} {fd offset whence : ℤ} (ho : s.isOpen fd)
    (hl : imap s.disk (s.fdescArray fd.toNat).inodeNum = true)
    (hr : ∀ r ∈ seekTarget s fd offset whence, 0 ≤ r ∧ r < 2 ^ 31) :
    doLseek s fd offset whence = match seekTarget s fd offset whence with
      | some r => if 0 ≤ r ∧ r < 2 ^ 31 then (r, s.setPos fd r.toNat) else (-1, s)
      | none => (-1, s) := by
  have hof : ∀ r : ℤ, 0 ≤ r ∧ r < 2 ^ 31 → (asInt (ofInt r), s.setPos fd (ofInt r)) =
      if 0 ≤ r ∧ r < 2 ^ 31 then (r, s.setPos fd r.toNat) else (-1, s) := fun r h => by
    have h1 : ofInt r = r.toNat := by
      unfold ofInt
      omega
    have h2 : asInt r.toNat = r := by
      unfold asInt
      split_ifs <;> omega
    rw [if_pos h, h1, h2]
  unfold doLseek
  rw [if_neg (not_not_intro ho)]
  dsimp only
  rw [getInode_eq s (imap_lt hl)]
  unfold seekTarget at hr ⊢
  split_ifs at hr ⊢
  · exact hof _ (hr _ rfl)
  · exact hof _ (hr _ rfl)
  · exact hof _ (hr _ rfl)
  · rfl

section Exact

variable {y : Sys} (h : FilesOk y) {p : ℕ} {stack : Mem} {fd : ℤ} {buff : Mem} {length : ℤ}

include h

/-- A write that keeps the bytes comes to its end or stops at a full disk. -/
theorem KeepsBytes.end (ho : (y.load p stack).isOpen fd) (hm : (y.fdescArray fd.toNat).mode ≠ oRdonly)
    (hk : KeepsBytes (y.load p stack) fd buff length) :
    ∃ k d, WriteEnd (fun o => o < (inode y.disk (y.fdescArray fd.toNat).inodeNum).size) (2 ^ 32) (y.load p stack) fd buff
      length.toNat k d (doWrite (y.load p stack) fd buff length) := by
  obtain ⟨hpos, hl⟩ := h.isOpen ho
  rcases doWrite_rounds h.sbOk h.blk ho hm hl hpos (hk.mono fun _ _ _ _ hc => hc.2) with ⟨-, hE⟩ | ⟨hno, -⟩
  · exact hE
  · exact absurd (hk.mono fun _ _ _ _ hc => hc.1) hno

/-- The calls in range keep the invariant. -/
theorem FilesOk.inRange {c : Call} (hc : c.InRange y) : FilesOk (y.step c) := by
  refine h.step hc.2 fun p stack fd buff length e ho hm => ?_
  subst e
  exact ⟨_, _, KeepsBytes.end h ho hm (hc.1 ho hm)⟩

/-- The calls in range are exact. -/
theorem FilesOk.exact {c : Call} (hc : c.ArgsOk y) : c.PosExact y := by
  cases c with
  | spawn p child temp => trivial
  | fs p stack op =>
    cases op with
    | mkdir path => trivial
    | touch path => trivial
    | ln src dst => trivial
    | rm path => trivial
    | rmdir path => trivial
    | cd path => trivial
    | «open» path mode => trivial
    | close fd => trivial
    | lseek fd offset whence => exact fun ho => doLseek_exact ho (h.isOpen ho).2 (hc ho)
    | read fd buff length =>
      intro ho hm n pos hlen hlt
      obtain ⟨k, t, buff', hk, e, hb⟩ := doRead_bytes ho (h.isOpen ho).2 h.blk hm buff length
      change k = (if (inode y.disk n).size - pos < 2 ^ 31 then readLen (inode y.disk n).size pos length else 0) at hk
      have hk : (k : ℤ) = min length ((inode y.disk n).size - pos) := by
        unfold readLen at hk
        rcases hlen.eq_or_lt with rfl | h0
        · split_ifs at hk <;> omega
        · rw [if_pos (hc ho hm h0)] at hk
          omega
      rw [e]
      refine ⟨hk, fun i hi => ?_⟩
      show buff' i = _
      rw [hb, if_pos (by omega)]
      rfl
    | write fd buff length =>
      intro ho hm n pos d hlen
      obtain ⟨k, d', hE⟩ := (hc ho hm).end h ho hm
      have hd : d = d' := hE.disk
      have hle := hE.bound
      rw [hd]
      exact ⟨hE.size_ge, fun o ho' hout => hE.landed.byte_eq h.blk ho' (by
        show o < pos ∨ pos + k ≤ o
        omega)⟩

end Exact

/-- A run over positions: a write, a step back and a read beyond the end. -/
def positionsRun : List Call :=
  [.fs 0 (fun _ => 0#8) (.open [98#8] oRdwr),
    .fs 0 (fun _ => 0#8) (.write 0 (fun _ => 7#8) 5),
    .fs 0 (fun _ => 0#8) (.lseek 0 (-3) 1),
    .fs 0 (fun _ => 0#8) (.read 0 (fun _ => 0#8) 10)]

set_option maxRecDepth 60000 in
theorem positionsRun_inRange : Valid Sys.step (fun y c => c.InRange y) boot positionsRun := by
  have hno : ∀ {y : Sys} {c : Call}, c.Moves → c.Settled y := fun hm hn => absurd hm hn
  refine ⟨⟨trivial, fun _ => ⟨boot_start.wf.wf.sizes, by decide +kernel, trivial⟩⟩, ⟨fun _ _ => ?_, hno trivial⟩,
    ⟨fun _ => ?_, hno trivial⟩, ⟨fun _ _ _ => ?_, hno trivial⟩, trivial⟩
  · decide +kernel
  · decide +kernel
  · decide +kernel

end RiscvKernel.Fs
