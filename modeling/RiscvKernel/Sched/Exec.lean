import RiscvKernel.Sched.Lifecycle
import RiscvKernel.Sched.System

/-!
# Names that are not programs

`do_exec` takes a slot of the PCB array before it looks for the program. When there is no program of the name
it gives the root table back, but not the slot: the PCB stays ready, and is in no queue. `execs_failed_iff`
says that nothing stays behind only where there was no free slot to begin with.
-/

namespace RiscvKernel.Sched

open Lib Mm

variable {c : ℕ} {name : CStr} {names : List CStr} {s : Kernel} {t : Task}

/-- There is no program of the name. -/
def NotATask (m : Memory) (name : CStr) : Prop :=
  ∀ i < taskMaxnum, name ≠ [] → name ≠ (m.tasks i).name

/-- One `do_exec` after the other, and what they return. -/
def execs (c : ℕ) : List CStr → Kernel → List ℤ × Kernel
  | [], s => ([], s)
  | name :: names, s =>
    let (r, s) := doExec c name s
    let (rs, s) := execs c names s
    (r :: rs, s)

/-- The slots that `do_exec` and `do_thread_create` may take. -/
def availableSlots (s : Kernel) : List (Fin taskMaxnum) :=
  slots.filter fun i => (s.pcb (.pcb i)).status = .exited

/-- The processes that `do_process_show` lists. -/
def shownSlots (s : Kernel) : List (Fin taskMaxnum) :=
  slots.filter fun i => (s.pcb (.pcb i)).status ≠ .exited

/-- The pages that have been handed out are back on the free list. -/
def PagesBack (m m' : Memory) : Prop :=
  ∃ evs, m'.pageLog = m.pageLog ++ evs ∧ ∀ p, evs.count (.alloc p) = evs.count (.free p)

/-- No process has been left behind. -/
structure NothingLeft (s s' : Kernel) : Prop where
  status : ∀ t, (s'.pcb t).status = (s.pcb t).status
  killed : ∀ t, (s'.pcb t).killed = (s.pcb t).killed
  slots : availableSlots s' = availableSlots s
  shown : shownSlots s' = shownSlots s
  pages : PagesBack s.memory s'.memory

theorem NothingLeft.refl (s : Kernel) : NothingLeft s s :=
  ⟨fun _ => rfl, fun _ => rfl, rfl, rfl, [], by simp, fun _ => by simp⟩

theorem freeSlot_eq_none : freeSlot s = none ↔ ∀ i, (s.pcb (.pcb i)).status ≠ .exited := by
  unfold freeSlot
  rw [Option.map_eq_none_iff, List.find?_eq_none]
  simp [slots]

/-! ## One call -/

/-- `load_task_img` does nothing for the name. -/
theorem NotATask.load {m : Memory} (h : NotATask m name) (pgdir : ℕ) : loadTaskImg name pgdir m = (0, m) := by
  have hscan : scan (fun i => if name ≠ [] ∧ name = (m.tasks i).name then some i else none) 0 taskMaxnum = none :=
    scan_eq_none.2 fun i _ hi => if_neg fun hn => h i (by omega) hn.1 hn.2
  unfold loadTaskImg
  rw [hscan]

theorem allocPage_tasks (n : ℕ) (m : Memory) : (allocPage n m).2.tasks = m.tasks := by
  unfold allocPage
  split <;> rfl

theorem freePage_tasks (p : ℕ) (m : Memory) : (freePage p m).tasks = m.tasks := by
  unfold freePage
  split <;> rfl

/-- The memory after a failed `do_exec`. -/
def rootBack (m : Memory) : Memory :=
  freePage (allocPage 1 m).1 (sharePgtable (allocPage 1 m).1 (pa2kva pgdirPa) (allocPage 1 m).2)

theorem rootBack_tasks (m : Memory) : (rootBack m).tasks = m.tasks :=
  (freePage_tasks _ _).trans (allocPage_tasks 1 m)

/-- What the failed call leaves in the PCB. -/
def claimed (c : ℕ) (t : Task) (s : Kernel) : Pcb :=
  { s.pcb t with
    pid := s.processId
    threadGroupId := 0
    status := .ready
    killed := false
    mask := (s.cur c).mask
    dirInode := (s.cur c).dirInode
    pgdirKva := (allocPage 1 s.memory).1 }

theorem doExec_full (h : freeSlot s = none) : doExec c name s = (0, s) := by
  unfold doExec
  rw [h]

/-- **A failed call** keeps the slot that it has taken. -/
theorem doExec_failed (h : NotATask s.memory name) (ht : freeSlot s = some t) :
    doExec c name s = (0, ({ s with processId := s.processId + 1 }.setPcb t (claimed c t s)).setMemory
      (rootBack s.memory)) := by
  have hload : NotATask (sharePgtable (allocPage 1 s.memory).1 (pa2kva pgdirPa) (allocPage 1 s.memory).2) name := by
    unfold NotATask
    rw [show (sharePgtable (allocPage 1 s.memory).1 (pa2kva pgdirPa) (allocPage 1 s.memory).2).tasks = s.memory.tasks
      from allocPage_tasks 1 s.memory]
    exact h
  unfold doExec
  rw [ht]
  dsimp only
  rw [hload.load, if_pos rfl]
  rfl

/-- The root table does go back. -/
theorem doExec_pages (c : ℕ) (h : NotATask s.memory name) (h0 : (allocPage 1 s.memory).1 ≠ 0) :
    PagesBack s.memory (doExec c name s).2.memory := by
  cases ht : freeSlot s with
  | none =>
    rw [doExec_full ht]
    exact ⟨[], by simp, fun _ => by simp⟩
  | some t =>
    rw [doExec_failed h ht]
    refine ⟨[.alloc (allocPage 1 s.memory).1, .free (allocPage 1 s.memory).1], ?_, fun p => ?_⟩
    · have hlog : (allocPage 1 s.memory).2.pageLog = s.memory.pageLog ++ [.alloc (allocPage 1 s.memory).1] := by
        unfold allocPage
        split <;> rfl
      show (rootBack s.memory).pageLog = _
      rw [rootBack, freePage, if_neg h0]
      show (allocPage 1 s.memory).2.pageLog ++ _ = _
      rw [hlog, List.append_assoc]
      rfl
    · by_cases hp : (allocPage 1 s.memory).1 = p
      · simp [hp]
      · simp [hp]

/-! ## Any number of calls -/

/-- What failed calls do to the slots: none becomes free. -/
theorem execs_failed (hall : ∀ n ∈ names, NotATask s.memory n) :
    (∀ r ∈ (execs c names s).1, r = 0) ∧ (freeSlot s = none → (execs c names s).2 = s) ∧
      ∀ i, (s.pcb (.pcb i)).status ≠ .exited → ((execs c names s).2.pcb (.pcb i)).status ≠ .exited := by
  induction names generalizing s with
  | nil => exact ⟨by simp [execs], fun _ => rfl, fun _ h => h⟩
  | cons name names ih =>
    obtain ⟨hname, hnames⟩ := List.forall_mem_cons.1 hall
    cases ht : freeSlot s with
    | none =>
      obtain ⟨h1, h2, h3⟩ := ih hnames
      simp only [execs, doExec_full ht]
      exact ⟨List.forall_mem_cons.2 ⟨rfl, h1⟩, fun _ => h2 ht, h3⟩
    | some t =>
      simp only [execs, doExec_failed hname ht]
      generalize hs1 : ({ s with processId := s.processId + 1 }.setPcb t (claimed c t s)).setMemory
        (rootBack s.memory) = s1
      have htasks : s1.memory.tasks = s.memory.tasks := by
        rw [← hs1]
        exact rootBack_tasks s.memory
      obtain ⟨h1, -, h3⟩ := ih (s := s1) fun n hn => by
        unfold NotATask
        rw [htasks]
        exact hnames n hn
      refine ⟨List.forall_mem_cons.2 ⟨rfl, h1⟩, nofun, fun i hi => h3 i ?_⟩
      rw [← hs1]
      by_cases hit : (.pcb i : Task) = t
      · subst hit
        show (Function.update s.pcb (.pcb i) _ (.pcb i)).status ≠ .exited
        rw [Function.update_self]
        nofun
      · show (Function.update s.pcb t _ (.pcb i)).status ≠ .exited
        rwa [Function.update_of_ne hit]

/-- **Failed calls leave nothing behind** exactly when there is no free slot, or no call. -/
theorem execs_failed_iff (c : ℕ) (hall : ∀ n ∈ names, NotATask s.memory n) :
    (∀ r ∈ (execs c names s).1, r = 0) ∧ NothingLeft s (execs c names s).2 ↔
      names = [] ∨ ∀ i, (s.pcb (.pcb i)).status ≠ .exited := by
  obtain ⟨hret, hfull, -⟩ := execs_failed (c := c) hall
  constructor
  · rintro ⟨-, h⟩
    cases names with
    | nil => exact Or.inl rfl
    | cons name names =>
      refine Or.inr (freeSlot_eq_none.1 ?_)
      cases ht : freeSlot s with
      | none => rfl
      | some t =>
        -- the slot was free and is not any more
        obtain ⟨i, rfl, he⟩ := freeSlot_eq ht
        obtain ⟨hname, hnames⟩ := List.forall_mem_cons.1 hall
        have hst := h.status (.pcb i)
        simp only [execs, doExec_failed hname ht] at hst
        generalize hs1 : ({ s with processId := s.processId + 1 }.setPcb (.pcb i) (claimed c (.pcb i) s)).setMemory
          (rootBack s.memory) = s1 at hst
        have htasks : s1.memory.tasks = s.memory.tasks := by
          rw [← hs1]
          exact rootBack_tasks s.memory
        have hready : (s1.pcb (.pcb i)).status = .ready := by
          rw [← hs1]
          show (Function.update s.pcb (.pcb i) _ (.pcb i)).status = .ready
          rw [Function.update_self]
          rfl
        have hnames1 : ∀ n ∈ names, NotATask s1.memory n := fun n hn => by
          unfold NotATask
          rw [htasks]
          exact hnames n hn
        have hkeep := (execs_failed (c := c) hnames1).2.2 i (by rw [hready]; nofun)
        exact absurd (hst.trans he) hkeep
  · rintro (rfl | hno)
    · exact ⟨by simp [execs], NothingLeft.refl s⟩
    · rw [hfull (freeSlot_eq_none.2 hno)]
      exact ⟨hret, NothingLeft.refl s⟩

/-- The name `zz`. -/
def noTask : CStr := [122#8, 122#8]

theorem noTask_boot : ∀ n ∈ [noTask], NotATask boot.memory n := by
  intro n hn
  rw [List.mem_singleton.1 hn]
  unfold NotATask
  decide

/-- After start-up all slots are free. -/
theorem execs_failed_boot :
    (∀ r ∈ (execs 0 [noTask] boot).1, r = 0) ∧ NothingLeft boot (execs 0 [noTask] boot).2 ↔
      [noTask] = [] ∨ ∀ i, (boot.pcb (.pcb i)).status ≠ .exited :=
  execs_failed_iff 0 noTask_boot

/-- The first failed call after start-up leaves a process in slot 0. -/
theorem doExec_phantom : ¬ ∀ c names s, (∀ n ∈ names, NotATask s.memory n) →
    (∀ r ∈ (execs c names s).1, r = 0) ∧ NothingLeft s (execs c names s).2 := by
  intro hall
  have h := (hall 0 [noTask] boot noTask_boot).2.status (.pcb ⟨0, by decide⟩)
  exact absurd h (by decide +kernel)

end RiscvKernel.Sched
