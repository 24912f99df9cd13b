import RiscvKernel.Lib.Refine
import RiscvKernel.Mm.Effect

/-!
# What the memory management is for

Each process has pages of its own and may have shared pages, and pages can be sent through pipes. There are no
page tables here, no frames and no swap area: `World.Step` says what a call is for. A page keeps its contents
until its owner writes to it, a shared page lives as long as somebody has it, and a pipe hands pages over in
the order in which it has got them.
-/

namespace RiscvKernel.Mm

open Lib

/-- What changes the memory: calls of processes, and what the hardware does for them. -/
inductive MemCall
  /-- `do_exec` makes an address space -/
  | spawn
  /-- `do_exit` ends it -/
  | exit (r : ℕ)
  /-- `handle_page_fault` -/
  | fault (r va : ℕ)
  /-- `alloc_page_helper` -/
  | provide (r va : ℕ)
  /-- the hardware marks a page as used -/
  | touch (r v : ℕ)
  /-- a program writes a byte -/
  | store (r v : ℕ) (off : Fin 4096) (b : Byte)
  /-- `add_to_active_list` of the page at `va` -/
  | track (r va : ℕ) (pid : ℤ)
  /-- `remove_from_active_list` -/
  | untrack (kva : ℕ)
  /-- `shm_page_get` -/
  | shmGet (r : ℕ) (key : ℤ)
  /-- `shm_page_dt` -/
  | shmDt (r addr : ℕ)
  /-- one page of `sys_pipe_give_pages` -/
  | give (r va i : ℕ)
  /-- one page of `sys_pipe_take_pages` -/
  | take (r va i : ℕ) (pid : ℤ)

/-- The address space that a call is about. -/
def MemCall.space : MemCall → Option ℕ
  | .spawn => none
  | .exit r => some r
  | .fault r _ => some r
  | .provide r _ => some r
  | .touch r _ => some r
  | .store r _ _ _ => some r
  | .track r _ _ => some r
  | .untrack _ => none
  | .shmGet r _ => some r
  | .shmDt r _ => some r
  | .give r _ _ => some r
  | .take r _ _ _ => some r

/-- The processes by their root tables, what they have at their page numbers, the shared pages with their keys,
and the pages in the pipes. -/
@[ext]
structure World where
  spaces : Finset ℕ
  cell : ℕ → ℕ → Cell
  slot : ℕ → Option (ℤ × Page)
  pipe : ℕ → List Page

/-- The contents of a page; a page that does not exist yet is full of zeros. -/
def Cell.page : Cell → Page
  | .own c => c
  | .none => fun _ => 0#8
  | .shared _ => fun _ => 0#8

/-- The page itself, if there is one. -/
def Cell.pages : Cell → List Page
  | .own c => [c]
  | .none => []
  | .shared _ => []

namespace World

variable {w w' : World} {r v i : ℕ} {x : Cell}

/-- Something else at one page number. -/
def put (w : World) (r v : ℕ) (x : Cell) : World :=
  { w with cell := Function.update w.cell r (Function.update (w.cell r) v x) }

/-- A process has the shared page `i`. -/
def Used (w : World) (i : ℕ) : Prop := ∃ r ∈ w.spaces, w.cell r (shmVpn i) = .shared i

open Classical in
/-- Shared pages that no process has go away. -/
noncomputable def sweep (w : World) : World := { w with slot := fun i => if w.Used i then w.slot i else none }

/-- **What the calls are for.** -/
inductive Step (w : World) : MemCall → World → Prop
  | spawn {q : ℕ} : q ∉ w.spaces → Step w .spawn { w with spaces := insert q w.spaces }
  | exit {r : ℕ} : Step w (.exit r)
      ({ w with spaces := w.spaces.erase r, cell := Function.update w.cell r fun _ => .none } : World).sweep
  | fault {r va : ℕ} : Step w (.fault r va) (w.put r (vpn va) (.own (w.cell r (vpn va)).page))
  | provide {r va : ℕ} : Step w (.provide r va) (w.put r (vpn va) (.own fun _ => 0#8))
  | touch {r v : ℕ} : Step w (.touch r v) w
  | store {r v : ℕ} {off : Fin 4096} {b : Byte} {c : Page} : w.cell r v = .own c →
      Step w (.store r v off b) (w.put r v (.own (Function.update c off b)))
  | storeShared {r v i : ℕ} {off : Fin 4096} {b : Byte} {k : ℤ} {c : Page} : w.cell r v = .shared i → w.slot i = some (k, c) →
      Step w (.store r v off b) { w with slot := Function.update w.slot i (some (k, Function.update c off b)) }
  | track {r va : ℕ} {pid : ℤ} : Step w (.track r va pid) w
  | untrack {kva : ℕ} : Step w (.untrack kva) w
  | attach {r i : ℕ} {key : ℤ} {c : Page} : w.slot i = some (key, c) → Step w (.shmGet r key) (w.put r (shmVpn i) (.shared i))
  | newSlot {r i : ℕ} {key : ℤ} {c : Page} : (∀ j k c, w.slot j = some (k, c) → k ≠ key) → w.slot i = none →
      Step w (.shmGet r key)
        (({ w with slot := Function.update w.slot i (some (key, c)) } : World).put r (shmVpn i) (.shared i))
  | noSlot {r : ℕ} {key : ℤ} : (∀ i < shmMaxNum, ∃ k c, w.slot i = some (k, c) ∧ k ≠ key) → Step w (.shmGet r key) w
  | detach {r i : ℕ} : w.cell r (shmVpn i) = .shared i →
      Step w (.shmDt r (shmVaBase + i * 4096)) (w.put r (shmVpn i) .none).sweep
  | notAttached {r addr : ℕ} : (∀ i, w.cell r (vpn addr) ≠ .shared i) → Step w (.shmDt r addr) w
  | give {r va i : ℕ} {c : Page} : w.cell r (vpn va) = .own c →
      Step w (.give r va i) { w.put r (vpn va) .none with pipe := Function.update w.pipe i (w.pipe i ++ [c]) }
  | notGiven {r va i : ℕ} : (∀ c, w.cell r (vpn va) ≠ .own c) → Step w (.give r va i) w
  | take {r va i : ℕ} {pid : ℤ} {c : Page} {cs : List Page} : w.pipe i = c :: cs →
      Step w (.take r va i pid) { w.put r (vpn va) (.own c) with pipe := Function.update w.pipe i cs }

theorem Step.congr {a : MemCall} {w'' : World} (h : Step w a w') (he : w' = w'') : Step w a w'' := he ▸ h

@[simp] theorem put_spaces : (w.put r v x).spaces = w.spaces := rfl

@[simp] theorem put_slot : (w.put r v x).slot = w.slot := rfl

@[simp] theorem put_pipe : (w.put r v x).pipe = w.pipe := rfl

theorem put_cell_self : (w.put r v x).cell r v = x := by
  show Function.update w.cell r (Function.update (w.cell r) v x) r v = x
  rw [Function.update_self, Function.update_self]

theorem put_cell_of_ne {y u : ℕ} (h : (y, u) ≠ (r, v)) : (w.put r v x).cell y u = w.cell y u := by
  show Function.update w.cell r (Function.update (w.cell r) v x) y u = w.cell y u
  by_cases hy : y = r
  · rw [hy] at h ⊢
    rw [Function.update_self, Function.update_of_ne fun hu => h (by rw [hu])]
  · rw [Function.update_of_ne hy]

theorem sweep_slot_of_used (h : w.Used i) : w.sweep.slot i = w.slot i := if_pos h

theorem sweep_slot_of_not_used (h : ¬ w.Used i) : w.sweep.slot i = none := if_neg h

/-- **A call changes the pages of its own process only.** -/
theorem Step.cell_eq {a : MemCall} (h : Step w a w') (ha : a.space ≠ some r) (v : ℕ) : w'.cell r v = w.cell r v := by
  have hput {y u : ℕ} {x : Cell} (hy : y ≠ r) : (w.put y u x).cell r v = w.cell r v :=
    put_cell_of_ne fun h => hy (by cases h; rfl)
  have hne {y : ℕ} (hy : a.space = some y) : y ≠ r := by
    rintro rfl
    exact ha hy
  cases h with
  | exit => exact congrFun (Function.update_of_ne (hne rfl).symm _ _) v
  | fault => exact hput (hne rfl)
  | provide => exact hput (hne rfl)
  | store => exact hput (hne rfl)
  | attach => exact hput (hne rfl)
  | newSlot => exact hput (hne rfl)
  | detach => exact hput (hne rfl)
  | give => exact hput (hne rfl)
  | take => exact hput (hne rfl)
  | spawn => rfl
  | touch => rfl
  | storeShared => rfl
  | track => rfl
  | untrack => rfl
  | noSlot => rfl
  | notAttached => rfl
  | notGiven => rfl

/-- A process that does not end stays. -/
theorem Step.mem_spaces {a : MemCall} (h : Step w a w') (ha : a.space ≠ some r) (hr : r ∈ w.spaces) : r ∈ w'.spaces := by
  cases h with
  | spawn => exact Finset.mem_insert_of_mem hr
  | exit => exact Finset.mem_erase.2 ⟨fun h => ha (by rw [h]; rfl), hr⟩
  | _ => exact hr

/-- **What other processes do is not seen.** -/
theorem path_cell_eq {as : List MemCall} (h : Refine.Path Step w as w') (has : ∀ a ∈ as, a.space ≠ some r) (hr : r ∈ w.spaces) :
    r ∈ w'.spaces ∧ ∀ v, w'.cell r v = w.cell r v := by
  induction h with
  | nil => exact ⟨hr, fun _ => rfl⟩
  | cons hstep _ ih =>
    have ha := has _ List.mem_cons_self
    obtain ⟨hr', hcell⟩ := ih (fun a h => has a (List.mem_cons_of_mem _ h)) (hstep.mem_spaces ha hr)
    exact ⟨hr', fun v => (hcell v).trans (hstep.cell_eq ha v)⟩

/-- The page that a call puts into the pipe `i`. -/
def sent (w : World) (i : ℕ) : MemCall → List Page
  | .give r va j => if j = i then (w.cell r (vpn va)).pages else []
  | _ => []

/-- The page that a call has taken out of the pipe `i`. -/
def got (w' : World) (i : ℕ) : MemCall → List Page
  | .take r va j _ => if j = i then (w'.cell r (vpn va)).pages else []
  | _ => []

/-- **A pipe keeps the order.** -/
theorem Step.fifo {a : MemCall} (h : Step w a w') (i : ℕ) : w.pipe i ++ w.sent i a = w'.got i a ++ w'.pipe i := by
  cases h with
  | @give r va j c hc =>
    show w.pipe i ++ (if j = i then (w.cell r (vpn va)).pages else []) = Function.update w.pipe j (w.pipe j ++ [c]) i
    rw [hc]
    by_cases hj : j = i
    · rw [if_pos hj, hj, Function.update_self]
      rfl
    · rw [if_neg hj, List.append_nil, Function.update_of_ne (Ne.symm hj)]
  | @notGiven r va j hc =>
    have hnil : (w.cell r (vpn va)).pages = [] := by
      cases hcell : w.cell r (vpn va) with
      | own c => exact absurd hcell (hc c)
      | none => rfl
      | shared k => rfl
    show w.pipe i ++ (if j = i then (w.cell r (vpn va)).pages else []) = w.pipe i
    rw [hnil, ite_self, List.append_nil]
  | @take r va j pid c cs hp =>
    have hcell : (w.put r (vpn va) (.own c)).cell r (vpn va) = .own c := put_cell_self
    show w.pipe i ++ [] = (if j = i then ((w.put r (vpn va) (.own c)).cell r (vpn va)).pages else []) ++
      Function.update w.pipe j cs i
    rw [hcell, List.append_nil]
    by_cases hj : j = i
    · rw [if_pos hj, ← hj, hp, Function.update_self]
      rfl
    · rw [if_neg hj, Function.update_of_ne (Ne.symm hj)]
      rfl
  | _ => exact List.append_nil _

/-- Nothing exists. -/
def empty : World := ⟨∅, fun _ _ => .none, fun _ => none, fun _ => []⟩

end World

end RiscvKernel.Mm
