import RiscvKernel.Mm.Calls
import RiscvKernel.Sched.Agreement
import RiscvKernel.Sched.Channels

/-!
# Giving pages to a pipe

`sys_pipe_give_pages` checks and moves one page after the other and can block in between. Where it finds a
page that it must not give, the pages before it are gone. So it is all or nothing exactly when no page but
the first can stop it (`allOrNothing_iff`).
-/

namespace RiscvKernel.Sched

open Lib Mm

variable {s s' : Kernel} {c i src length r fuel : ℕ} {done v : ℤ} {h : Head} {m m' : Memory}
  {tr : List (Kernel × Kernel)}

/-! ## Rounds -/

/-- How a round of the loop ends. -/
inductive Round
  | ended
  | blocked
  | failed
  | moved
deriving DecidableEq

/-- `pipe->page_buffer[pipe->head] = pa` and the two lines after it. -/
def pushPage (pa : ℕ) (p : Pipe) : Pipe :=
  { p with
    pageBuffer := Function.update p.pageBuffer p.head pa
    head := (p.head + 1) % pipeBufferSize
    dataCount := p.dataCount + 1 }

/-- One round of the loop of `sys_pipe_give_pages`. -/
def giveRound (c i src length : ℕ) (done : ℤ) (s : Kernel) : Option (Round × Kernel) :=
  if done < i32 (length / pageSize : ℕ) then
    if (pipeBufferSize : ℤ) ≤ (s.pipes i).dataCount then some (.blocked, pipeBlock (s.current c) i s)
    else do
      let (pa, m) ← unmapPage (src + done.toNat * pageSize) (s.cur c).pgdirKva s.memory
      let s := s.setMemory m
      match pa with
      | none => return (.failed, s)
      | some pa =>
        let s ← wakeupIf (.pipe i) (s.setPipe i (pushPage pa (s.pipes i)))
        return (.moved, s)
  else some (.ended, s)

/-- The loop goes on after a round that has moved a page. -/
theorem pipeGiveLoop_succ : pipeGiveLoop c i src length (fuel + 1) done s =
    (giveRound c i src length done s).bind fun
      | (.ended, s') => some (.ret length, s')
      | (.blocked, s') => some (.sched (.give done), s')
      | (.failed, s') => some (.ret (-1), s')
      | (.moved, s') => pipeGiveLoop c i src length fuel (done + 1) s' := by
  rw [pipeGiveLoop, giveRound]
  split_ifs
  · rfl
  · cases unmapPage (src + done.toNat * pageSize) (s.cur c).pgdirKva s.memory with
    | none => rfl
    | some x =>
      obtain ⟨pa, m⟩ := x
      cases pa with
      | none => rfl
      | some pa =>
        show (wakeupIf (.pipe i) ((s.setMemory m).setPipe i (pushPage pa (s.pipes i)))).bind
            (fun s => pipeGiveLoop c i src length fuel (done + 1) s) =
          ((wakeupIf (.pipe i) ((s.setMemory m).setPipe i (pushPage pa (s.pipes i)))).bind
            fun s => some (Round.moved, s)).bind _
        cases wakeupIf (.pipe i) ((s.setMemory m).setPipe i (pushPage pa (s.pipes i))) <;> rfl
  · rfl

/-- The states before and after each round that is about a page, up to the return or to
`do_scheduler`. -/
def roundsOf (round : ℤ → Kernel → Option (Round × Kernel)) : ℕ → ℤ → Kernel → List (Kernel × Kernel)
  | 0, _, _ => []
  | fuel + 1, done, s =>
    match round done s with
    | none => []
    | some (o, s') =>
      match o with
      | .moved => (s, s') :: roundsOf round fuel (done + 1) s'
      | .failed => [(s, s')]
      | .ended => []
      | .blocked => []

def giveRounds (c i src length : ℕ) : ℕ → ℤ → Kernel → List (Kernel × Kernel) :=
  roundsOf (giveRound c i src length)

/-- What a round adds. -/
def roundsAfter (s s' : Kernel) (rest : List (Kernel × Kernel)) : Round → List (Kernel × Kernel)
  | .moved => (s, s') :: rest
  | .failed => [(s, s')]
  | .ended => []
  | .blocked => []

theorem roundsOf_succ {round : ℤ → Kernel → Option (Round × Kernel)} {o : Round}
    (e : round done s = some (o, s')) :
    roundsOf round (fuel + 1) done s = roundsAfter s s' (roundsOf round fuel (done + 1) s') o := by
  rw [roundsOf, e]
  cases o <;> rfl

theorem giveRounds_succ {o : Round} (e : giveRound c i src length done s = some (o, s')) :
    giveRounds c i src length (fuel + 1) done s =
      roundsAfter s s' (giveRounds c i src length fuel (done + 1) s') o := roundsOf_succ e

/-- A call, from `done` pages on, of a process with root table `r`, with the states before and after its
rounds and its result. While it is blocked the other processes may do anything but change its root
table. -/
inductive GiveRun (i src length r : ℕ) : ℤ → Kernel → List (Kernel × Kernel) → ℤ → Prop
  | ret {c : ℕ} {done v : ℤ} {s s' : Kernel} : (s.cur c).pgdirKva = r →
      pipeGiveLoop c i src length (length + 1) done s = some (.ret v, s') →
      GiveRun i src length r done s (giveRounds c i src length (length + 1) done s) v
  | block {c : ℕ} {done done' v : ℤ} {s s' s'' : Kernel} {tr : List (Kernel × Kernel)} : (s.cur c).pgdirKva = r →
      pipeGiveLoop c i src length (length + 1) done s = some (.sched (.give done'), s') →
      GiveRun i src length r done' s'' tr v →
      GiveRun i src length r done s (giveRounds c i src length (length + 1) done s ++ tr) v

/-! ## All or nothing -/

/-- The page table, the ring and the table of active pages are as before. -/
structure Unchanged (i r : ℕ) (s s' : Kernel) : Prop where
  entry : ∀ v, entry s'.memory r v = entry s.memory r v
  pipe : s'.pipes i = s.pipes i
  activePages : s'.memory.activePages = s.memory.activePages
  activePageCount : s'.memory.activePageCount = s.memory.activePageCount
  clockHead : s'.memory.clockHead = s.memory.clockHead

/-- The page at `va` is out of the page table, and its frame is the last in the ring; a page that was
swapped out is in a new frame. But for the bytes of the entry itself, should they be in the page, the frame has
the contents of the page. -/
def Transferred (i r va : ℕ) (s s' : Kernel) : Prop :=
  ∃ pte q, getPte va r s.memory = some pte ∧ readPte s'.memory pte = 0 ∧
    (Present (entry s.memory r (vpn va)) → q = target (entry s.memory r (vpn va))) ∧
    s'.pipes i = pushPage (kva2pa q) (s.pipes i) ∧
    ∀ off < 4096, (q + off < pte ∨ pte + 8 ≤ q + off) →
      s'.memory.mem (q + off) = pageOf s.memory r (vpn va) off

/-- What has to hold after a call: if it has failed, none of its rounds has changed anything; if not, it
returns the length, and there is a round for each page that has transferred it. -/
def AllOrNothing (i src length r : ℕ) (tr : List (Kernel × Kernel)) (v : ℤ) : Prop :=
  (v = -1 → ∀ x ∈ tr, Unchanged i r x.1 x.2) ∧
    (v ≠ -1 → v = length ∧ ∀ j < length / pageSize, ∃ x, tr[j]? = some x ∧
      Transferred i r (src + j * pageSize) x.1 x.2)

/-- The page can be given: it is private, or swapped out. -/
def Givable (m : Memory) (r v : ℕ) : Prop :=
  (Present (entry m r v) ∧ ¬ Shared (entry m r v)) ∨ Swapped (entry m r v)

instance (m : Memory) (r v : ℕ) : Decidable (Givable m r v) :=
  inferInstanceAs (Decidable ((_ ∧ _) ∨ _))

/-- Only the first page may be one that cannot be given, when its turn comes, and the number of pages is an
`int` unless this is so. -/
structure OnlyFirst (src length r : ℕ) (tr : List (Kernel × Kernel)) : Prop where
  first : ∀ j x, tr[j]? = some x → ¬ Givable x.1.memory r (vpn (src + j * pageSize)) → j = 0
  int : 2 ^ 31 ≤ length / pageSize → ∃ x, tr[0]? = some x ∧ ¬ Givable x.1.memory r (vpn src)

/-! ## One page -/

/-- `get_pte` finds the entry of a page that can be given. -/
theorem unmapPage_cases (va r : ℕ) (m : Memory) :
    (¬ Givable m r (vpn va) ∧ unmapPage va r m = some (none, m)) ∨
    ∃ pte, getPte va r m = some pte ∧ entry m r (vpn va) = readPte m pte ∧
      ((Present (readPte m pte) ∧ ¬ Shared (readPte m pte) ∧
        unmapPage va r m = (removeFromActiveList (pa2kva (getPa (readPte m pte))) m).map fun m' =>
          (some (getPa (readPte m pte)), writePte pte 0 m')) ∨
      (Swapped (readPte m pte) ∧ unmapPage va r m = some (some (kva2pa (allocPage 1 m).1),
        writePte pte 0 (swapIn (allocPage 1 m).1 (swapIdOf (readPte m pte)) (allocPage 1 m).2)))) := by
  unfold unmapPage
  cases ha : getPte va r m with
  | none =>
    refine Or.inl ⟨?_, rfl⟩
    have he : entry m r (vpn va) = 0 := by
      unfold entry
      rw [← getPte_vpn, ha]
    unfold Givable
    rw [he]
    decide
  | some pte =>
    have he := entry_eq ha
    unfold Givable
    rw [he]
    by_cases hp : Present (readPte m pte)
    · have hp' : getAttribute (readPte m pte) pagePresent ≠ 0 := hp
      have hnot : ¬ Swapped (readPte m pte) := fun h => h.1 hp
      simp only [if_pos hp']
      by_cases hs : Shared (readPte m pte)
      · rw [if_pos hs.2]
        exact Or.inl ⟨fun h => h.elim (fun h => h.2 hs) hnot, rfl⟩
      · rw [if_neg fun h => hs ⟨hp, h⟩]
        exact Or.inr ⟨pte, rfl, rfl, Or.inl ⟨hp, hs, rfl⟩⟩
    · have hp' : ¬ getAttribute (readPte m pte) pagePresent ≠ 0 := hp
      simp only [if_neg hp']
      by_cases hs : getAttribute (readPte m pte) pageSwap ≠ 0
      · rw [if_pos hs]
        exact Or.inr ⟨pte, rfl, rfl, Or.inr ⟨⟨hp, hs⟩, rfl⟩⟩
      · rw [if_neg hs]
        exact Or.inl ⟨fun h => h.elim (fun h => hp h.1) fun h => hs h.2, rfl⟩

theorem kva2pa_target (e : ℕ) : kva2pa (target e) = getPa e := by
  have h : getPa e < 2 ^ 64 := Nat.mod_lt _ (by norm_num)
  unfold target
  generalize getPa e = pa at *
  unfold kva2pa pa2kva kvaPaOffset
  omega

theorem removeFromActiveList_mem {kva : ℕ} (hm : removeFromActiveList kva m = some m') :
    m'.mem = m.mem := by
  rcases removeFromActiveList_cases kva m with ⟨-, e⟩ | ⟨j, -, -, -, e⟩
  · rw [e] at hm
    cases hm
    rfl
  · rw [e] at hm
    by_cases hc : 0 < (dropActive j m).activePageCount ∧ (dropActive j m).clockHead = j
    · rw [if_pos hc] at hm
      obtain ⟨i, -, rfl⟩ := Option.map_eq_some_iff.mp hm
      rfl
    · rw [if_neg hc] at hm
      cases hm
      rfl

/-- A page that can be given is taken out with its contents. -/
theorem unmapPage_some {va : ℕ} {pa : Option ℕ} (hm : unmapPage va r m = some (pa, m')) :
    (¬ Givable m r (vpn va) ∧ pa = none ∧ m' = m) ∨
    Givable m r (vpn va) ∧ ∃ pte q, getPte va r m = some pte ∧ pa = some (kva2pa q) ∧ readPte m' pte = 0 ∧
      (Present (entry m r (vpn va)) → q = target (entry m r (vpn va))) ∧
      ∀ off < 4096, (q + off < pte ∨ pte + 8 ≤ q + off) → m'.mem (q + off) = pageOf m r (vpn va) off := by
  rcases unmapPage_cases va r m with ⟨hg, e⟩ | ⟨pte, ha, he, ⟨hp, hs, e⟩ | ⟨hs, e⟩⟩
  · rw [e] at hm
    cases hm
    exact Or.inl ⟨hg, rfl, rfl⟩
  · -- in memory
    rw [e, Option.map_eq_some_iff] at hm
    obtain ⟨m1, h1, hm⟩ := hm
    cases hm
    have h1 := removeFromActiveList_mem h1
    refine Or.inr ⟨?_, pte, target (readPte m pte), ha, ?_, ?_, ?_, fun off hoff hout => ?_⟩
    · unfold Givable
      rw [he]
      exact Or.inl ⟨hp, hs⟩
    · rw [kva2pa_target]
    · exact readPte_writePte_self _ _ (by norm_num)
    · rw [he]
      exact fun _ => rfl
    · unfold pageOf
      rw [he, if_pos hp, ← h1]
      exact putLe_out hout
  · -- in the swap area
    rw [e] at hm
    cases hm
    refine Or.inr ⟨?_, pte, _, ha, rfl, ?_, ?_, fun off hoff hout => ?_⟩
    · unfold Givable
      rw [he]
      exact Or.inr hs
    · exact readPte_writePte_self _ _ (by norm_num)
    · rw [he]
      exact fun hp => absurd hp hs.1
    · unfold pageOf
      rw [he, if_neg hs.1, if_pos hs]
      have h1 : (writePte pte 0 (swapIn (allocPage 1 m).1 (swapIdOf (readPte m pte)) (allocPage 1 m).2)).mem
          ((allocPage 1 m).1 + off) =
          (swapIn (allocPage 1 m).1 (swapIdOf (readPte m pte)) (allocPage 1 m).2).mem
            ((allocPage 1 m).1 + off) := putLe_out hout
      rw [h1, swapIn_mem hoff, (allocPage_rest 1 m).sd, swapOffset_of_start (allocPage_rest 1 m).swapStartSec]

/-! ## One round -/

/-- `wakeup` changes queues and statuses. -/
theorem wakeupFrom_keeps (fuel : ℕ) (n : Node) (s : Kernel) (hs : wakeupFrom h fuel n s = some s') :
    s'.memory = s.memory ∧ s'.pipes = s.pipes ∧ s'.mailboxes = s.mailboxes ∧ s'.current = s.current ∧
      ∀ t, (s'.pcb t).pgdirKva = (s.pcb t).pgdirKva := by
  induction fuel generalizing n s with
  | zero => cases hs
  | succ fuel ih =>
    cases n with
    | inl t =>
      obtain ⟨h1, h2, h3, h4, h5⟩ := ih _ (doUnblock t s) hs
      refine ⟨h1, h2, h3, h4, fun u => (h5 u).trans ?_⟩
      show (Function.update s.pcb t { s.pcb t with status := .ready } u).pgdirKva = _
      by_cases hu : u = t
      · rw [hu, Function.update_self]
      · rw [Function.update_of_ne hu]
    | inr g =>
      rw [wakeupFrom] at hs
      split_ifs at hs
      cases hs
      exact ⟨rfl, rfl, rfl, rfl, fun _ => rfl⟩

theorem wakeupIf_keeps (hs : wakeupIf h s = some s') :
    s'.memory = s.memory ∧ s'.pipes = s.pipes ∧ s'.current = s.current ∧
      ∀ t, (s'.pcb t).pgdirKva = (s.pcb t).pgdirKva := by
  unfold wakeupIf at hs
  split_ifs at hs
  · obtain ⟨h1, h2, -, h3, h4⟩ := wakeupFrom_keeps _ _ _ hs
    exact ⟨h1, h2, h3, h4⟩
  · cases hs
    exact ⟨rfl, rfl, rfl, fun _ => rfl⟩

/-- A round ends the loop, blocks, finds a page that it must not give and changes nothing, or transfers its
page. -/
theorem giveRound_cases {d : ℕ} {o : Round} (hr : (s.cur c).pgdirKva = r)
    (hs : giveRound c i src length d s = some (o, s')) :
    (¬ (d : ℤ) < i32 (length / pageSize : ℕ) ∧ o = .ended) ∨
    (d : ℤ) < i32 (length / pageSize : ℕ) ∧
      (o = .blocked ∨
      (o = .failed ∧ ¬ Givable s.memory r (vpn (src + d * pageSize)) ∧ s' = s) ∨
      (o = .moved ∧ Givable s.memory r (vpn (src + d * pageSize)) ∧
        Transferred i r (src + d * pageSize) s s' ∧ (s'.cur c).pgdirKva = r)) := by
  unfold giveRound at hs
  by_cases hd : (d : ℤ) < i32 (length / pageSize : ℕ)
  · refine Or.inr ⟨hd, ?_⟩
    rw [if_pos hd] at hs
    split_ifs at hs with hfull
    · cases hs
      exact Or.inl rfl
    · rw [Int.toNat_natCast, hr] at hs
      cases hm : unmapPage (src + d * pageSize) r s.memory with
      | none =>
        rw [hm] at hs
        cases hs
      | some x =>
        obtain ⟨pa, m⟩ := x
        rw [hm] at hs
        rcases unmapPage_some hm with ⟨hg, rfl, rfl⟩ | ⟨hg, pte, q, ha, rfl, hz, hq, hb⟩
        · cases hs
          exact Or.inr (Or.inl ⟨rfl, hg, rfl⟩)
        · simp only [Option.bind_eq_bind, Option.bind_some, Option.bind_eq_some_iff] at hs
          obtain ⟨s1, hw, hs⟩ := hs
          cases hs
          obtain ⟨hmem, hpipes, hcur, hpg⟩ := wakeupIf_keeps hw
          refine Or.inr (Or.inr ⟨rfl, hg, ⟨pte, q, ha, ?_, hq, ?_, ?_⟩, ?_⟩)
          · rw [hmem]
            exact hz
          · rw [hpipes]
            exact Function.update_self _ _ _
          · rw [hmem]
            exact hb
          · show (s'.pcb (s'.current c)).pgdirKva = r
            rw [hcur, hpg]
            exact hr
  · rw [if_neg hd] at hs
    cases hs
    exact Or.inl ⟨hd, rfl⟩

/-! ## Segments and calls -/

/-- The rounds `tr` have transferred the pages from number `d` on. -/
def Moved (i src length r d : ℕ) (tr : List (Kernel × Kernel)) : Prop :=
  ∀ k x, tr[k]? = some x → ((d + k : ℕ) : ℤ) < i32 (length / pageSize : ℕ) ∧
    Givable x.1.memory r (vpn (src + (d + k) * pageSize)) ∧
    Transferred i r (src + (d + k) * pageSize) x.1 x.2

/-- The rounds have transferred pages until the last one has found a page that it must not give. -/
def Stopped (i src length r d : ℕ) (tr : List (Kernel × Kernel)) : Prop :=
  ∃ tr0 x, tr = tr0 ++ [x] ∧ Moved i src length r d tr0 ∧
    ¬ Givable x.1.memory r (vpn (src + (d + tr0.length) * pageSize)) ∧ x.2 = x.1

theorem moved_nil {d : ℕ} : Moved i src length r d [] := nofun

theorem Moved.append {d : ℕ} {tr' : List (Kernel × Kernel)} (h1 : Moved i src length r d tr)
    (h2 : Moved i src length r (d + tr.length) tr') : Moved i src length r d (tr ++ tr') := by
  intro k x hk
  by_cases hlt : k < tr.length
  · rw [List.getElem?_append_left hlt] at hk
    exact h1 k x hk
  · rw [List.getElem?_append_right (not_lt.mp hlt)] at hk
    have h := h2 _ x hk
    have hd : d + tr.length + (k - tr.length) = d + k := by omega
    rwa [hd] at h

theorem Moved.stopped {d : ℕ} {tr' : List (Kernel × Kernel)} (h1 : Moved i src length r d tr)
    (h2 : Stopped i src length r (d + tr.length) tr') : Stopped i src length r d (tr ++ tr') := by
  obtain ⟨tr0, x, rfl, h3, h4, h5⟩ := h2
  refine ⟨tr ++ tr0, x, (List.append_assoc _ _ _).symm, h1.append h3, ?_, h5⟩
  rwa [List.length_append, ← Nat.add_assoc]

theorem moved_one {d : ℕ} {x : Kernel × Kernel} (hd : (d : ℤ) < i32 (length / pageSize : ℕ))
    (hg : Givable x.1.memory r (vpn (src + d * pageSize)))
    (ht : Transferred i r (src + d * pageSize) x.1 x.2) : Moved i src length r d [x] := by
  intro k y hk
  cases k with
  | zero =>
    cases hk
    exact ⟨hd, hg, ht⟩
  | succ k => cases hk

/-- The rounds of the loop up to its return or to `do_scheduler`. -/
theorem giveRounds_spec {d : ℕ} {o : Out} (hr : (s.cur c).pgdirKva = r)
    (hs : pipeGiveLoop c i src length fuel d s = some (o, s')) :
    (o = .ret length ∧ Moved i src length r d (giveRounds c i src length fuel d s) ∧
      i32 (length / pageSize : ℕ) ≤ (d + (giveRounds c i src length fuel d s).length : ℕ)) ∨
    (o = .ret (-1) ∧ Stopped i src length r d (giveRounds c i src length fuel d s)) ∨
    (o = .sched (.give (d + (giveRounds c i src length fuel d s).length : ℕ)) ∧
      Moved i src length r d (giveRounds c i src length fuel d s)) := by
  induction fuel generalizing d s with
  | zero =>
    rw [pipeGiveLoop] at hs
    cases hs
  | succ fuel ih =>
    rw [pipeGiveLoop_succ] at hs
    cases e : giveRound c i src length d s with
    | none =>
      rw [e] at hs
      cases hs
    | some x =>
      obtain ⟨o1, s1⟩ := x
      rw [e, Option.bind_some] at hs
      rw [giveRounds_succ e]
      rcases giveRound_cases hr e with ⟨hd, rfl⟩ | ⟨hd, rfl | ⟨rfl, hg, hs1⟩ | ⟨rfl, hg, ht, hr1⟩⟩
      · cases hs
        refine Or.inl ⟨rfl, moved_nil, ?_⟩
        rw [roundsAfter, List.length_nil, Nat.add_zero]
        exact not_lt.mp hd
      · cases hs
        exact Or.inr (Or.inr ⟨rfl, moved_nil⟩)
      · cases hs
        exact Or.inr (Or.inl ⟨rfl, [], _, rfl, moved_nil, hg, hs1⟩)
      · have h1 : Moved i src length r d [(s, s1)] := moved_one hd hg ht
        have hd1 : (d : ℤ) + 1 = ((d + 1 : ℕ) : ℤ) := by push_cast; rfl
        simp only at hs
        rw [hd1] at hs ⊢
        generalize hT : giveRounds c i src length fuel (d + 1 : ℕ) s1 = rest
        have hrest : roundsAfter s s1 rest .moved = [(s, s1)] ++ rest := rfl
        have hlen : d + ([(s, s1)] ++ rest).length = d + 1 + rest.length := by
          rw [List.length_append, List.length_singleton, Nat.add_assoc]
        have ih := ih hr1 hs
        rw [hT] at ih
        rw [hrest, hlen]
        rcases ih with ⟨ho, hm, hle⟩ | ⟨ho, hst⟩ | ⟨ho, hm⟩
        · exact Or.inl ⟨ho, h1.append hm, hle⟩
        · exact Or.inr (Or.inl ⟨ho, h1.stopped hst⟩)
        · exact Or.inr (Or.inr ⟨ho, h1.append hm⟩)

/-- A call transfers pages to the end, or until it finds one that it must not give. -/
theorem GiveRun.spec {d : ℕ} (h : GiveRun i src length r d s tr v) :
    (v = length ∧ Moved i src length r d tr ∧ i32 (length / pageSize : ℕ) ≤ (d + tr.length : ℕ)) ∨
      (v = -1 ∧ Stopped i src length r d tr) := by
  generalize hd : (d : ℤ) = done at h
  induction h generalizing d with
  | ret hr hs =>
    subst hd
    rcases giveRounds_spec hr hs with ⟨ho, hm, hle⟩ | ⟨ho, hst⟩ | ⟨ho, -⟩
    · cases ho
      exact Or.inl ⟨rfl, hm, hle⟩
    · cases ho
      exact Or.inr ⟨rfl, hst⟩
    · cases ho
  | block hr hs _ ih =>
    subst hd
    rcases giveRounds_spec hr hs with ⟨ho, -⟩ | ⟨ho, -⟩ | ⟨ho, hm⟩
    · cases ho
    · cases ho
    · cases ho
      rcases ih rfl with ⟨hv, hm', hle⟩ | ⟨hv, hst⟩
      · refine Or.inl ⟨hv, hm.append hm', ?_⟩
        rwa [List.length_append, ← Nat.add_assoc]
      · exact Or.inr ⟨hv, hm.stopped hst⟩

/-- A call of `sys_pipe_give_pages` whose arguments are right is all or nothing exactly when no page but the
first stops it. -/
theorem allOrNothing_iff (h : GiveRun i src length r 0 s tr v) :
    AllOrNothing i src length r tr v ↔ OnlyFirst src length r tr := by
  rcases h.spec (d := 0) with ⟨rfl, hm, hle⟩ | ⟨rfl, tr0, x, rfl, hm, hg, hx⟩
  · -- the call has come to the end
    have hne : (length : ℤ) ≠ -1 := by omega
    have hm : ∀ (k : ℕ) x, tr[k]? = some x → (k : ℤ) < i32 (length / pageSize : ℕ) ∧
        Givable x.1.memory r (vpn (src + k * pageSize)) ∧ Transferred i r (src + k * pageSize) x.1 x.2 := by
      intro k x hk
      have := hm k x hk
      rwa [Nat.zero_add] at this
    rw [Nat.zero_add] at hle
    constructor
    · rintro ⟨-, hall⟩
      obtain ⟨-, hall⟩ := hall hne
      refine ⟨fun j x hj hng => absurd (hm j x hj).2.1 hng, fun hbig => ?_⟩
      obtain ⟨x, hx, -⟩ := hall (2 ^ 31 - 1) (by omega)
      have h1 := (hm _ x hx).1
      have h2 := i32_lt (length / pageSize : ℕ)
      omega
    · intro ho
      refine ⟨fun h => absurd h hne, fun _ => ⟨rfl, fun j hj => ?_⟩⟩
      have hint : length / pageSize < 2 ^ 31 := by
        by_contra hbig
        obtain ⟨x, hx, hng⟩ := ho.int (not_lt.mp hbig)
        have := (hm 0 x hx).2.1
        rw [Nat.zero_mul, Nat.add_zero] at this
        exact hng this
      rw [i32_eq (by omega) (by exact_mod_cast hint)] at hle
      have hlt : j < tr.length := by omega
      exact ⟨tr[j], List.getElem?_eq_getElem hlt, (hm j _ (List.getElem?_eq_getElem hlt)).2.2⟩
  · -- it has been stopped
    have hlast : (tr0 ++ [x])[tr0.length]? = some x := List.getElem?_concat_length
    rw [Nat.zero_add] at hg
    constructor
    · rintro ⟨hall, -⟩
      have hnil : tr0 = [] := by
        cases tr0 with
        | nil => rfl
        | cons y ys =>
          -- the first page is in the ring
          obtain ⟨-, -, pte, q, -, -, -, hp, -⟩ := hm 0 y rfl
          have hu := (hall rfl y List.mem_cons_self).pipe
          rw [hp] at hu
          have := congrArg Pipe.dataCount hu
          simp only [pushPage] at this
          omega
      subst hnil
      refine ⟨fun j y hj _ => ?_, fun _ => ⟨x, rfl, ?_⟩⟩
      · cases j with
        | zero => rfl
        | succ j => cases hj
      · simpa using hg
    · intro ho
      have h0 := ho.first _ x hlast hg
      obtain rfl := List.length_eq_zero_iff.mp h0
      refine ⟨fun _ y hy => ?_, fun h => absurd rfl h⟩
      obtain rfl := List.mem_singleton.mp hy
      rw [hx]
      exact ⟨fun _ => rfl, rfl, rfl, rfl, rfl⟩

/-- Process 1 on CPU 0, with a private page at 0x10000 and none after it, and an empty pipe. -/
def giver : Kernel where
  links := ⟨id, id⟩
  pcb
    | .pcb _ => ⟨1, .running, false, 0, 0, maskAll, 0, 0xffffffc052000000, 0⟩
    | .idle cpu => idlePcb cpu
  current c := if c = 0 then .pcb ⟨0, by decide⟩ else .idle c
  processId := 2
  mlocks := boot.mlocks
  conditions := boot.conditions
  barriers := boot.barriers
  mailboxes := boot.mailboxes
  pipes _ := ⟨[112#8], true, fun _ => 0, 0, 0, 0⟩
  memory :=
    { bootMemory with
      -- the root table, the two tables below it, and the page
      mem := putLe (putLe (putLe (fun _ => 0#8) 0xffffffc052000000 8 0x14800401)
        0xffffffc052001000 8 0x14800801) 0xffffffc052002080 8 0x14800cd7
      kernMemCurr := 0xffffffc052004000 }
  cont _ := .user
  kernelLock := none
  log := []

/-- The run of a call that does not block. -/
theorem giveRun_of_ret (hr : (s.cur c).pgdirKva = r)
    (h : (pipeGiveLoop c i src length (length + 1) done s).map Prod.fst = some (.ret v)) :
    GiveRun i src length r done s (giveRounds c i src length (length + 1) done s) v := by
  obtain ⟨⟨o, s'⟩, e, ho⟩ := Option.map_eq_some_iff.mp h
  obtain rfl : o = .ret v := ho
  exact .ret hr e

/-- The page is given. -/
theorem allOrNothing_onePage : ∃ tr, GiveRun 0 0x10000 4096 0xffffffc052000000 0 giver tr 4096 ∧
    (AllOrNothing 0 0x10000 4096 0xffffffc052000000 tr 4096 ↔
      OnlyFirst 0x10000 4096 0xffffffc052000000 tr) := by
  have h : GiveRun 0 0x10000 4096 0xffffffc052000000 0 giver _ 4096 :=
    giveRun_of_ret (c := 0) rfl (by decide +kernel)
  exact ⟨_, h, allOrNothing_iff h⟩

/-- Two pages, of which the second does not exist: the first is in the pipe when the call fails. -/
theorem allOrNothing_stopped : ¬ ∀ tr v, GiveRun 0 0x10000 8192 0xffffffc052000000 0 giver tr v →
    AllOrNothing 0 0x10000 8192 0xffffffc052000000 tr v := by
  intro hall
  have h : GiveRun 0 0x10000 8192 0xffffffc052000000 0 giver _ (-1) :=
    giveRun_of_ret (c := 0) rfl (by decide +kernel)
  have hround : (giveRound 0 0 0x10000 8192 0 giver).map Prod.fst = some .moved := by decide +kernel
  obtain ⟨⟨o, s1⟩, e, ho⟩ := Option.map_eq_some_iff.mp hround
  obtain rfl : o = .moved := ho
  have hmem : (giver, s1) ∈ giveRounds 0 0 0x10000 8192 (8192 + 1) 0 giver := by
    rw [giveRounds_succ e]
    exact List.mem_cons_self
  have hu := ((hall _ _ h).1 rfl _ hmem).pipe
  rcases giveRound_cases (d := 0) rfl e with
    ⟨-, h1⟩ | ⟨-, h1 | ⟨h1, -⟩ | ⟨-, -, ⟨pte, q, -, -, -, hp, -⟩, -⟩⟩
  · cases h1
  · cases h1
  · cases h1
  · rw [hp] at hu
    have := congrArg Pipe.dataCount hu
    simp only [pushPage] at this
    omega

end RiscvKernel.Sched
