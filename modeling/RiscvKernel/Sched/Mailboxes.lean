import RiscvKernel.Sched.Agreement
import RiscvKernel.Sched.Calls

/-!
# The reference counts of mailboxes

`do_mbox_open` and `do_mbox_close` count the users of a mailbox. Nothing ties a close to an open: a
close of a mailbox that nobody has open takes its count below zero, where the slot is neither free nor
in use for the rest of the run, and the open after 2^31 - 1 others wraps it. The counts are right
exactly as long as none of these calls is made (`mailboxes_right_iff`).
-/

namespace RiscvKernel.Sched

open Lib Mm Run

/-! ## The calls -/

/-- A call of `do_mbox_open` with a name that fits, or of `do_mbox_close` with any index. -/
inductive MboxCall
  | open (name : {name : CStr // name.length < maxMboxName})
  | close (idx : ℤ)
deriving DecidableEq

/-- The state after the call. -/
def mboxStep (s : Kernel) : MboxCall → Kernel
  | .open name => ((doMboxOpen name s).map Prod.snd).getD s
  | .close idx => (doMboxClose idx s).getD s

/-- Mailbox `i` is open under the name. -/
def OpenAs (s : Kernel) (i : ℕ) (name : CStr) : Prop :=
  0 < (s.mailboxes i).userCount ∧ (s.mailboxes i).name = name

instance (s : Kernel) (i : ℕ) (name : CStr) : Decidable (OpenAs s i name) :=
  inferInstanceAs (Decidable (_ ∧ _))

/-- No count is negative, and no name is in use twice. -/
structure CountsOk (s : Kernel) : Prop where
  nonneg : ∀ i < mboxNum, 0 ≤ (s.mailboxes i).userCount
  distinct : ∀ i < mboxNum, ∀ j < mboxNum, ∀ name, OpenAs s i name → OpenAs s j name → i = j

/-- What the call has to do: open finds the mailbox that is open under the name and fails only when
all are in use; close has no effect where nobody has the mailbox open. -/
def CallRight (s : Kernel) : MboxCall → Prop
  | .open name =>
    (∀ i < mboxNum, OpenAs s i name → ∃ s', doMboxOpen name s = some ((i : ℤ), s')) ∧
      ∀ s', doMboxOpen name s = some (-1, s') → ∀ i < mboxNum, 0 < (s.mailboxes i).userCount
  | .close idx =>
    idx < 0 ∨ mboxNum ≤ idx ∨ (s.mailboxes idx.toNat).userCount = 0 → doMboxClose idx s = some s

/-- The call is right and leaves the counts right. -/
def RightStep (s : Kernel) (c : MboxCall) : Prop := CallRight s c ∧ CountsOk (mboxStep s c)

/-- An open is not of a mailbox with 2^31 - 1 users, and a close is of a mailbox with users. -/
def CountFits (s : Kernel) : MboxCall → Prop
  | .open name => ∀ i < mboxNum, OpenAs s i name → (s.mailboxes i).userCount ≠ 2 ^ 31 - 1
  | .close idx => 0 ≤ idx → idx < mboxNum → (s.mailboxes idx.toNat).userCount ≠ 0

instance (s : Kernel) (c : MboxCall) : Decidable (CountFits s c) := by
  cases c <;> unfold CountFits <;> infer_instance

/-- The states the runs start from: the queues are in order and the counts are right, each of them an
`int`. -/
structure MboxInv (s : Kernel) : Prop where
  queues : ∃ q, Mid none s q
  int : ∀ i, (s.mailboxes i).userCount < 2 ^ 31
  counts : CountsOk s

/-! ## Open -/

variable {s : Kernel} {i : ℕ} {name : CStr} {idx : ℤ}

theorem OpenAs.unique {name' : CStr} (h : OpenAs s i name) (h' : OpenAs s i name') : name = name' :=
  h.2.symm.trans h'.2

/-- The three ways of `do_mbox_open`: the name is in use, a mailbox is free, all are in use. -/
theorem doMboxOpen_cases (hn : name.length < maxMboxName) (s : Kernel) :
    (∃ i < mboxNum, OpenAs s i name ∧ doMboxOpen name s = some ((i : ℤ), s.setMailbox i
      { s.mailboxes i with userCount := i32 ((s.mailboxes i).userCount + 1) })) ∨
    ((∀ i < mboxNum, ¬ OpenAs s i name) ∧ ∃ i < mboxNum, (s.mailboxes i).userCount = 0 ∧
      doMboxOpen name s = some ((i : ℤ), s.setMailbox i
        { s.mailboxes i with name := name, userCount := 1 })) ∨
    ((∀ i < mboxNum, ¬ OpenAs s i name) ∧ (∀ i < mboxNum, (s.mailboxes i).userCount ≠ 0) ∧
      doMboxOpen name s = some (-1, s)) := by
  unfold doMboxOpen
  cases h1 : scan (fun i => if 0 < (s.mailboxes i).userCount ∧ (s.mailboxes i).name = name then some i
    else none) 0 mboxNum with
  | some i =>
    obtain ⟨j, -, hj, e, -⟩ := scan_eq_some.mp h1
    split_ifs at e with h
    cases e
    exact Or.inl ⟨i, by omega, h, rfl⟩
  | none =>
    have hno : ∀ i < mboxNum, ¬ OpenAs s i name := by
      intro i hi h
      have h : 0 < (s.mailboxes i).userCount ∧ (s.mailboxes i).name = name := h
      have := scan_eq_none.mp h1 i (Nat.zero_le _) (by omega)
      rw [if_pos h] at this
      cases this
    cases h2 : scan (fun i => if (s.mailboxes i).userCount = 0 then some i else none) 0 mboxNum with
    | some i =>
      obtain ⟨j, -, hj, e, -⟩ := scan_eq_some.mp h2
      split_ifs at e with h
      cases e
      refine Or.inr (Or.inl ⟨hno, i, by omega, h, ?_⟩)
      simp only [if_pos hn]
    | none =>
      refine Or.inr (Or.inr ⟨hno, fun i hi h => ?_, rfl⟩)
      have := scan_eq_none.mp h2 i (Nat.zero_le _) (by omega)
      rw [if_pos h] at this
      cases this

theorem mboxStep_open {s' : Kernel} {k : ℤ} {hn : name.length < maxMboxName}
    (e : doMboxOpen name s = some (k, s')) : mboxStep s (.open ⟨name, hn⟩) = s' := by
  show ((doMboxOpen name s).map Prod.snd).getD s = s'
  rw [e]
  rfl

theorem mboxStep_close {s' : Kernel} (e : doMboxClose idx s = some s') :
    mboxStep s (.close idx) = s' := by
  show (doMboxClose idx s).getD s = s'
  rw [e]
  rfl

/-! ## One change of a count -/

@[simp] theorem setMailbox_self (m : Mailbox) : (s.setMailbox i m).mailboxes i = m :=
  Function.update_self _ _ _

theorem setMailbox_ne (m : Mailbox) {j : ℕ} (h : j ≠ i) :
    (s.setMailbox i m).mailboxes j = s.mailboxes j := Function.update_of_ne h _ _

/-- A count changes but stays positive if it was. -/
theorem CountsOk.of_count {s' : Kernel} (h : CountsOk s)
    (hn : ∀ j, (s'.mailboxes j).name = (s.mailboxes j).name)
    (h0 : ∀ j < mboxNum, 0 ≤ (s'.mailboxes j).userCount)
    (hp : ∀ j < mboxNum, 0 < (s'.mailboxes j).userCount → 0 < (s.mailboxes j).userCount) :
    CountsOk s' := by
  refine ⟨h0, fun j hj k hk name hj' hk' => ?_⟩
  obtain ⟨j1, j2⟩ := hj'
  obtain ⟨k1, k2⟩ := hk'
  rw [hn] at j2 k2
  exact h.distinct j hj k hk name ⟨hp j hj j1, j2⟩ ⟨hp k hk k1, k2⟩

/-! ## The steps -/

/-- `do_mbox_open` is always right; the counts stay right unless one of them wraps. -/
theorem open_right_iff (h : MboxInv s) (hn : name.length < maxMboxName) :
    RightStep s (.open ⟨name, hn⟩) ↔ CountFits s (.open ⟨name, hn⟩) := by
  rcases doMboxOpen_cases hn s with ⟨i, hi, ho, e⟩ | ⟨hno, i, hi, h0, e⟩ | ⟨hno, hall, e⟩
  · -- the name is in use
    have hcall : CallRight s (.open ⟨name, hn⟩) := by
      refine ⟨fun j hj hjo => ?_, fun s' hs' => ?_⟩
      · obtain rfl := h.counts.distinct i hi j hj name ho hjo
        exact ⟨_, e⟩
      · rw [e] at hs'
        have := congrArg Prod.fst (Option.some.inj hs')
        simp only at this
        omega
    have hstep : mboxStep s (.open ⟨name, hn⟩) = s.setMailbox i
        { s.mailboxes i with userCount := i32 ((s.mailboxes i).userCount + 1) } :=
      mboxStep_open e
    have hpos : 0 < (s.mailboxes i).userCount := ho.1
    have hint := h.int i
    unfold RightStep
    rw [hstep, and_iff_right hcall]
    constructor
    · intro hc j hj hjo hmax
      obtain rfl := h.counts.distinct i hi j hj name ho hjo
      have h0 := hc.nonneg i hi
      rw [setMailbox_self, hmax] at h0
      have h0 : 0 ≤ i32 (2 ^ 31 - 1 + 1) := h0
      exact absurd h0 (by decide)
    · intro hf
      have hne := hf i hi ho
      have hw : i32 ((s.mailboxes i).userCount + 1) = (s.mailboxes i).userCount + 1 :=
        i32_eq (by omega) (by omega)
      rw [hw]
      refine h.counts.of_count (fun j => ?_) (fun j hj => ?_) (fun j hj hj' => ?_)
      · by_cases hji : j = i
        · rw [hji, setMailbox_self]
        · rw [setMailbox_ne _ hji]
      · by_cases hji : j = i
        · rw [hji, setMailbox_self]
          show 0 ≤ (s.mailboxes i).userCount + 1
          omega
        · rw [setMailbox_ne _ hji]
          exact h.counts.nonneg j hj
      · by_cases hji : j = i
        · rw [hji]
          exact hpos
        · rwa [setMailbox_ne _ hji] at hj'
  · -- a free mailbox gets the name
    have hstep : mboxStep s (.open ⟨name, hn⟩) = s.setMailbox i
        { s.mailboxes i with name := name, userCount := 1 } :=
      mboxStep_open e
    refine iff_of_true ⟨⟨fun j hj hjo => absurd hjo (hno j hj), fun s' hs' => ?_⟩, ?_⟩
      fun j hj hjo => absurd hjo (hno j hj)
    · rw [e] at hs'
      have := congrArg Prod.fst (Option.some.inj hs')
      simp only at this
      omega
    rw [hstep]
    have hopen : ∀ j < mboxNum, ∀ name', OpenAs (s.setMailbox i
        { s.mailboxes i with name := name, userCount := 1 }) j name' →
        (j = i ∧ name' = name) ∨ (j ≠ i ∧ OpenAs s j name') := by
      rintro j hj name' ⟨h1, h2⟩
      by_cases hji : j = i
      · rw [hji, setMailbox_self] at h2
        exact Or.inl ⟨hji, h2.symm⟩
      · rw [setMailbox_ne _ hji] at h1 h2
        exact Or.inr ⟨hji, h1, h2⟩
    constructor
    · intro j hj
      by_cases hji : j = i
      · rw [hji, setMailbox_self]
        exact zero_le_one
      · rw [setMailbox_ne _ hji]
        exact h.counts.nonneg j hj
    · intro j hj k hk name' hj' hk'
      rcases hopen j hj name' hj' with ⟨hji, hj'⟩ | ⟨-, hj'⟩
      · rcases hopen k hk name' hk' with ⟨hki, -⟩ | ⟨-, hk'⟩
        · rw [hji, hki]
        · exact absurd (hj' ▸ hk') (hno k hk)
      · rcases hopen k hk name' hk' with ⟨-, hk'⟩ | ⟨-, hk'⟩
        · exact absurd (hk' ▸ hj') (hno j hj)
        · exact h.counts.distinct j hj k hk name' hj' hk'
  · -- all mailboxes are in use
    have hstep : mboxStep s (.open ⟨name, hn⟩) = s := mboxStep_open e
    refine iff_of_true ⟨⟨fun j hj hjo => absurd hjo (hno j hj), fun s' _ j hj => ?_⟩, ?_⟩
      fun j hj hjo => absurd hjo (hno j hj)
    · have := h.counts.nonneg j hj
      have := hall j hj
      omega
    · rw [hstep]
      exact h.counts

/-- What `do_mbox_close` leaves of the counts and names, and that it returns. -/
theorem doMboxClose_counts {q : Head → List Task} (hq : Mid none s q) (hi : i < mboxNum) :
    ∃ s', doMboxClose i s = some s' ∧ (∃ q', Mid none s' q') ∧
      (∀ j, (s'.mailboxes j).name = (s.mailboxes j).name) ∧
      ∀ j, (s'.mailboxes j).userCount =
        if j = i then i32 ((s.mailboxes i).userCount - 1) else (s.mailboxes j).userCount := by
  rw [doMboxClose_eq hi]
  split_ifs with hz
  · generalize hm : ({ s.mailboxes i with userCount := 0, nread := 0, nwrite := 0 } : Mailbox) = m
    have hq0 : Mid none (s.setMailbox i m) q := hq
    obtain ⟨l, e1, h1⟩ := hq0.wakeup (h := .recv i) nofun
    obtain ⟨l', e2, h2⟩ := h1.wakeup (h := .send i) nofun
    refine ⟨_, by rw [e1]; exact e2, ⟨_, h2⟩, fun j => ?_, fun j => ?_⟩
    · show ((s.setMailbox i m).mailboxes j).name = _
      by_cases hji : j = i
      · rw [hji, setMailbox_self, ← hm]
      · rw [setMailbox_ne _ hji]
    · show ((s.setMailbox i m).mailboxes j).userCount = _
      by_cases hji : j = i
      · rw [hji, setMailbox_self, ← hm, if_pos rfl, hz]
      · rw [setMailbox_ne _ hji, if_neg hji]
  · refine ⟨_, rfl, ⟨q, hq⟩, fun j => ?_, fun j => ?_⟩
    · by_cases hji : j = i
      · rw [hji, setMailbox_self]
      · rw [setMailbox_ne _ hji]
    · by_cases hji : j = i
      · rw [hji, setMailbox_self, if_pos rfl]
      · rw [setMailbox_ne _ hji, if_neg hji]

/-- `do_mbox_close` is right exactly when somebody has the mailbox open, or the index is none. -/
theorem close_right_iff (h : MboxInv s) : RightStep s (.close idx) ↔ CountFits s (.close idx) := by
  obtain ⟨q, hq⟩ := h.queues
  rcases index_cases idx mboxNum with hout | ⟨i, hi, rfl⟩
  · have e : doMboxClose idx s = some s := by
      rw [doMboxClose, if_pos hout]
    refine iff_of_true ⟨fun _ => e, ?_⟩ fun h1 h2 => by omega
    show CountsOk ((doMboxClose idx s).getD s)
    rw [e]
    exact h.counts
  · obtain ⟨s', e, -, hn, hu⟩ := doMboxClose_counts hq hi
    have hstep : mboxStep s (.close i) = s' := mboxStep_close e
    have h0 := h.counts.nonneg i hi
    have hint := h.int i
    unfold RightStep
    rw [hstep]
    constructor
    · rintro ⟨-, hc⟩ - - hz
      have := hc.nonneg i hi
      rw [Int.toNat_natCast] at hz
      rw [hu, if_pos rfl, hz] at this
      exact absurd this (by decide)
    · intro hf
      have hne := hf (Int.natCast_nonneg i) (by exact_mod_cast hi)
      rw [Int.toNat_natCast] at hne
      have hw : i32 ((s.mailboxes i).userCount - 1) = (s.mailboxes i).userCount - 1 :=
        i32_eq (by omega) (by omega)
      rw [hw] at hu
      refine ⟨fun hc => ?_, h.counts.of_count hn (fun j hj => ?_) fun j hj hj' => ?_⟩
      · rw [Int.toNat_natCast] at hc
        omega
      · rw [hu]
        split_ifs
        · omega
        · exact h.counts.nonneg j hj
      · rw [hu] at hj'
        split_ifs at hj' with hji
        · rw [hji]
          omega
        · exact hj'

/-! ## The runs -/

/-- What a right call keeps. -/
theorem RightStep.inv {c : MboxCall} (h : MboxInv s) (hr : RightStep s c) : MboxInv (mboxStep s c) := by
  obtain ⟨q, hq⟩ := h.queues
  cases c with
  | «open» name =>
    obtain ⟨name, hn⟩ := name
    have hstep : ∃ s', mboxStep s (.open ⟨name, hn⟩) = s' ∧ Mid none s' q ∧
        ∀ i, (s'.mailboxes i).userCount < 2 ^ 31 := by
      rcases doMboxOpen_cases hn s with ⟨i, hi, ho, e⟩ | ⟨hno, i, hi, h0, e⟩ | ⟨hno, hall, e⟩
      · refine ⟨_, mboxStep_open e, hq, fun j => ?_⟩
        by_cases hji : j = i
        · rw [hji, setMailbox_self]
          exact i32_lt _
        · rw [setMailbox_ne _ hji]
          exact h.int j
      · refine ⟨_, mboxStep_open e, hq, fun j => ?_⟩
        by_cases hji : j = i
        · rw [hji, setMailbox_self]
          norm_num
        · rw [setMailbox_ne _ hji]
          exact h.int j
      · exact ⟨s, mboxStep_open e, hq, h.int⟩
    obtain ⟨s', e, hq', hint⟩ := hstep
    have hr := hr.2
    rw [e] at hr ⊢
    exact ⟨⟨q, hq'⟩, hint, hr⟩
  | close idx =>
    have hr := hr.2
    rcases index_cases idx mboxNum with hout | ⟨i, hi, rfl⟩
    · have e : doMboxClose idx s = some s := by
        rw [doMboxClose, if_pos hout]
      rwa [mboxStep_close e]
    · obtain ⟨s', e, hq', -, hu⟩ := doMboxClose_counts hq hi
      have e' : mboxStep s (.close i) = s' := mboxStep_close e
      rw [e'] at hr ⊢
      refine ⟨hq', fun j => ?_, hr⟩
      rw [hu]
      split_ifs
      · exact i32_lt _
      · exact h.int j

/-- For every sequence of opens and closes, the counts and the names are right all along and each call
does what it has to, exactly when no close is of a mailbox that nobody has open and no open is of one
with 2^31 - 1 users. -/
theorem mailboxes_right_iff (h : MboxInv s) (cs : List MboxCall) :
    Valid mboxStep RightStep s cs ↔ Valid mboxStep CountFits s cs := by
  refine valid_congr (fun s c _ hs hr => hr.inv hs) (fun s c _ hs => ?_) h
  cases c with
  | «open» name => exact open_right_iff hs name.2
  | close idx => exact close_right_iff hs

/-- All mailboxes are free when the kernel starts. -/
theorem Start.mboxInv (h : Start s) : MboxInv s where
  queues := ⟨_, h.good.mid⟩
  int := fun i => by
    rw [(h.mailboxes i).2.2.1]
    norm_num
  counts := by
    constructor
    · intro i _
      rw [(h.mailboxes i).2.2.1]
    · rintro i - j - name ⟨hi, -⟩ -
      rw [(h.mailboxes i).2.2.1] at hi
      exact absurd hi (lt_irrefl 0)

/-- Two opens of one name and the closes of both. -/
theorem mailboxes_right_twoUsers : Valid mboxStep RightStep boot
    [.open ⟨[109#8], by decide⟩, .open ⟨[109#8], by decide⟩, .close 0, .close 0, .close 99] ↔
      Valid mboxStep CountFits boot
        [.open ⟨[109#8], by decide⟩, .open ⟨[109#8], by decide⟩, .close 0, .close 0, .close 99] :=
  mailboxes_right_iff start_boot.mboxInv _

/-- A close right after `init_mbox` makes a count negative. -/
theorem mailboxes_closedUnopened : ¬ ∀ cs, Valid mboxStep RightStep boot cs := by
  intro h
  have h0 : 0 ≤ ((mboxStep boot (.close 0)).mailboxes 0).userCount :=
    (h [.close 0]).1.2.nonneg 0 (by decide)
  exact absurd h0 (by decide +kernel)

end RiscvKernel.Sched
