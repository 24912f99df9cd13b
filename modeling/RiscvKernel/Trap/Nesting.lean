import RiscvKernel.Trap.Context

/-!
# Nested traps

While one PCB is current, its traps are entered through `SAVE_CONTEXT` and left through
`RESTORE_CONTEXT` and `sret`. A page fault inside a system call is a trap within a trap, and both
use the one save area and the one `user_sp` of the PCB.

A state records the traps that have been taken and not been left, each with the context that its
entry saved (and that its own handler has updated since). `run_restores`: leaving a trap gives back
its context when no other trap was taken inside it. A trap from user mode inside which another
one was taken never gets it back (`nested_lost` is such a run).
-/

namespace RiscvKernel.Trap

open Lib Hart Relation

/-- A trap that has been taken and not been left. -/
structure Taken where
  /-- what the entry saved, with the handler's updates -/
  frame : Frame
  /-- taken in user mode -/
  user : Bool
  /-- another trap has been taken since -/
  nested : Bool

/-- The hart, and the traps it is in, the last one first. -/
structure St where
  hart : Hart
  taken : List Taken

/-! ## Steps -/

/-- `exception_handler_entry` up to the call of `interrupt_helper`. -/
def enter (s : Hart) (stvec cause tval : Word64) : Hart :=
  (s.takeTrap stvec cause tval).line saveContext

/-- The end of `ret_from_exception`. -/
def leave (s : Hart) : Hart := (s.line restoreContext).sret

/-- The trap that the hart enters. -/
def taking (s : Hart) (stvec cause tval : Word64) : Taken :=
  ⟨savedFrame (s.takeTrap stvec cause tval), !s.smode, false⟩

/-- Another trap is taken inside this one. -/
def Taken.interrupt (t : Taken) : Taken := { t with nested := true }

/-- `regs->sepc += 4` of `handle_syscall`. -/
def advance (s : Hart) (area : Word64) : Hart :=
  s.store (at64 area offsetSepc) (s.mem (at64 area offsetSepc) + 4)

/-- `regs->regs[10] = v` of `handle_syscall`. -/
def setResult (s : Hart) (area v : Word64) : Hart := s.store (at64 area 80) v

/-- What code between traps, of the program or of a handler, leaves alone: the zero register, `tp`,
the mode, the PCB's two fields and the save area. -/
structure Keeps (pcb area : Word64) (s s' : Hart) : Prop where
  zero : s'.x 0 = 0
  tp : s'.x tp = s.x tp
  smode : s'.smode = s.smode
  userSp : s'.mem (at64 pcb pcbUserSp) = s.mem (at64 pcb pcbUserSp)
  context : s'.mem (at64 pcb pcbContext) = s.mem (at64 pcb pcbContext)
  area : ∀ i < 36, s'.mem (at64 area (8 * i)) = s.mem (at64 area (8 * i))

/-- Going on to another instruction. -/
theorem Keeps.jump {pcb area : Word64} {s : Hart} (h : s.x 0 = 0) (pc : Word64) :
    Keeps pcb area s { s with pc := pc } :=
  ⟨h, rfl, rfl, rfl, rfl, fun _ _ => rfl⟩

/-- A step while the PCB is current. -/
inductive Step (pcb area stvec : Word64) : St → St → Prop
  | code {s : Hart} {ts : List Taken} {s' : Hart} (h : Keeps pcb area s s') :
      Step pcb area stvec ⟨s, ts⟩ ⟨s', ts⟩
  | trap {s : Hart} {ts : List Taken} (cause tval : Word64) :
      Step pcb area stvec ⟨s, ts⟩
        ⟨enter s stvec cause tval, taking s stvec cause tval :: ts.map Taken.interrupt⟩
  | advance {s : Hart} {t : Taken} {ts : List Taken} :
      Step pcb area stvec ⟨s, t :: ts⟩
        ⟨advance s area, { t with frame := { t.frame with sepc := t.frame.sepc + 4 } } :: ts⟩
  | setResult {s : Hart} {t : Taken} {ts : List Taken} (v : Word64) :
      Step pcb area stvec ⟨s, t :: ts⟩
        ⟨setResult s area v,
          { t with frame := { t.frame with x := Function.update t.frame.x 10 v } } :: ts⟩
  | leave {s : Hart} {t : Taken} {ts : List Taken} :
      Step pcb area stvec ⟨s, t :: ts⟩ ⟨leave s, ts⟩

/-- The PCB is current and in no trap. -/
structure Start (pcb area : Word64) (s : St) : Prop where
  apart : Apart pcb area
  zero : s.hart.x 0 = 0
  tp : s.hart.x tp = pcb
  context : s.hart.mem (at64 pcb pcbContext) = area
  taken : s.taken = []

/-- The states of the runs from `Start`. -/
def Reach (pcb area stvec : Word64) (s : St) : Prop :=
  ∃ s₀, Start pcb area s₀ ∧ ReflTransGen (Step pcb area stvec) s₀ s

/-- Leaving the trap `t` gives back its context; one from user mode returns there. -/
structure Restores (s : Hart) (t : Taken) : Prop where
  context : frameOf (s.line restoreContext) = t.frame
  back : t.user = true → (leave s).smode = false ∧ (leave s).pc = t.frame.sepc

/-! ## The invariant -/

/-- The context was saved in supervisor mode. -/
def Frame.Spp (f : Frame) : Prop := f.sstatus &&& srSpp ≠ 0

/-- What the PCB holds, for the traps that are being handled. -/
def Held (f : Frame) (pcb : Word64) : List Taken → Prop
  | [] => True
  | t :: ts =>
    f.x 0 = 0 ∧ f.x tp = pcb ∧ (t.nested = false → f = t.frame) ∧ (t.nested = true → f.Spp) ∧
      ∀ u ∈ ts, u.nested = true

structure Inv (pcb area : Word64) (s : St) : Prop where
  apart : Apart pcb area
  zero : s.hart.x 0 = 0
  tp : s.hart.x tp = pcb
  context : s.hart.mem (at64 pcb pcbContext) = area
  smode : s.taken ≠ [] → s.hart.smode = true
  held : Held (frameAt s.hart.mem pcb) pcb s.taken
  spp : ∀ t ∈ s.taken, t.frame.Spp ↔ t.user = false
  inner : ∀ t ∈ s.taken.dropLast, t.user = false

/-! ## What the steps do -/

/-- The saved `SPP` is the interrupted mode. -/
theorem takeTrap_spp (s : Hart) (stvec cause tval : Word64) :
    (savedFrame (s.takeTrap stvec cause tval)).Spp ↔ s.smode = true := by
  have hlow (c : Word64) : (c &&& ~~~(srSie ||| srSpie ||| srSpp)) &&& srSpp = 0 := by
    rw [BitVec.and_assoc, show ~~~(srSie ||| srSpie ||| srSpp) &&& srSpp = 0#64 by decide,
      BitVec.and_zero]
    rfl
  unfold Frame.Spp
  show (((s.csr .sstatus &&& ~~~(srSie ||| srSpie ||| srSpp))
          ||| (if s.csr .sstatus &&& srSie ≠ 0 then srSpie else 0)
          ||| (if s.smode then srSpp else 0)) ||| srSum) &&& srSpp ≠ 0 ↔ _
  rw [BitVec.and_or_distrib_right, BitVec.and_or_distrib_right, BitVec.and_or_distrib_right, hlow]
  cases s.smode <;> split <;> decide

section enter
variable {s : Hart} {pcb area : Word64} (hapart : Apart pcb area) (htp : s.x tp = pcb)
  (hctx : s.mem (at64 pcb pcbContext) = area) (stvec cause tval : Word64)
include hapart htp hctx

/-- After the entry the PCB holds what the trap saved. -/
theorem enter_frameAt : frameAt (enter s stvec cause tval).mem pcb =
    (taking s stvec cause tval).frame := by
  subst htp hctx
  exact frameAt_save (s := s.takeTrap stvec cause tval) hapart

theorem enter_context : (enter s stvec cause tval).mem (at64 pcb pcbContext) = area := by
  subst htp hctx
  exact save_context (s := s.takeTrap stvec cause tval) hapart

end enter

theorem enter_x (s : Hart) (stvec cause tval : Word64) :
    (enter s stvec cause tval).x 0 = s.x 0 ∧ (enter s stvec cause tval).x tp = s.x tp :=
  ⟨save_x (by decide) (by decide) (by decide) (by decide) (by decide),
    save_x (by decide) (by decide) (by decide) (by decide) (by decide)⟩

theorem enter_smode (s : Hart) (stvec cause tval : Word64) :
    (enter s stvec cause tval).smode = true := save_smode

/-- A context is read from the PCB's two fields and the save area. -/
theorem frameAt_congr {m m' : Mem64} {pcb area : Word64}
    (hctx : m (at64 pcb pcbContext) = area) (hctx' : m' (at64 pcb pcbContext) = area)
    (hsp : m' (at64 pcb pcbUserSp) = m (at64 pcb pcbUserSp))
    (harea : ∀ i < 36, m' (at64 area (8 * i)) = m (at64 area (8 * i))) :
    frameAt m' pcb = frameAt m pcb := by
  unfold frameAt
  rw [hctx, hctx', hsp]
  apply Frame.ext
  · funext r
    exact if_congr Iff.rfl rfl (harea r (by omega))
  · exact harea 32 (by decide)
  · exact harea 33 (by decide)
  · exact harea 34 (by decide)
  · exact harea 35 (by decide)

/-- A write to one slot of the area leaves the other slots alone. -/
theorem update_slot (m : Mem64) (area v : Word64) {i j : ℕ} (hi : i < 36) (hj : j < 36)
    (h : i ≠ j) :
    Function.update m (at64 area (8 * j)) v (at64 area (8 * i)) = m (at64 area (8 * i)) :=
  Function.update_of_ne (fun he => h (by
    have := (at64_inj (by omega) (by omega)).mp he
    omega)) _ _

section update
variable {m : Mem64} {pcb area : Word64} (hapart : Apart pcb area)
  (hctx : m (at64 pcb pcbContext) = area) (v : Word64)
include hapart

/-- A write to the area leaves the PCB's fields alone. -/
theorem update_fields {i : ℕ} (hi : i < 36) :
    Function.update m (at64 area (8 * i)) v (at64 pcb pcbContext) = m (at64 pcb pcbContext) ∧
      Function.update m (at64 area (8 * i)) v (at64 pcb pcbUserSp) = m (at64 pcb pcbUserSp) :=
  ⟨Function.update_of_ne (hapart i hi).2 _ _, Function.update_of_ne (hapart i hi).1 _ _⟩

include hctx

theorem frameAt_update_sepc : frameAt (Function.update m (at64 area offsetSepc) v) pcb =
    { frameAt m pcb with sepc := v } := by
  have hslot (i : ℕ) (hi : i < 36) (h : i ≠ 33) := update_slot m area v hi (j := 33) (by decide) h
  have hf := update_fields hapart (m := m) v (i := 33) (by decide)
  unfold frameAt
  rw [hf.1, hf.2, hctx]
  apply Frame.ext
  · funext r
    exact if_congr Iff.rfl rfl (hslot r (by omega) (by omega))
  · exact hslot 32 (by decide) (by decide)
  · exact Function.update_self ..
  · exact hslot 34 (by decide) (by decide)
  · exact hslot 35 (by decide) (by decide)

theorem frameAt_update_a0 : frameAt (Function.update m (at64 area 80) v) pcb =
    { frameAt m pcb with x := Function.update (frameAt m pcb).x 10 v } := by
  have hslot (i : ℕ) (hi : i < 36) (h : i ≠ 10) := update_slot m area v hi (j := 10) (by decide) h
  have hf := update_fields hapart (m := m) v (i := 10) (by decide)
  unfold frameAt
  rw [hf.1, hf.2, hctx]
  apply Frame.ext
  · funext r
    show _ = Function.update (fun r : Fin 32 =>
      if r = sp then m (at64 pcb pcbUserSp) else m (at64 area (8 * r.val))) 10 v r
    by_cases hr : r = 10
    · rw [hr, Function.update_self]
      exact Function.update_self ..
    · rw [Function.update_of_ne hr]
      exact if_congr Iff.rfl rfl (hslot r (by omega) fun h => hr (Fin.ext h))
  · exact hslot 32 (by decide) (by decide)
  · exact hslot 33 (by decide) (by decide)
  · exact hslot 34 (by decide) (by decide)
  · exact hslot 35 (by decide) (by decide)

end update

/-! ## The invariant is kept -/

theorem Inv.start {pcb area : Word64} {s : St} (h : Start pcb area s) : Inv pcb area s where
  apart := h.apart
  zero := h.zero
  tp := h.tp
  context := h.context
  smode hne := absurd h.taken hne
  held := by rw [h.taken]; trivial
  spp t ht := by rw [h.taken] at ht; cases ht
  inner t ht := by rw [h.taken] at ht; cases ht

section keep
variable {pcb area stvec : Word64} {s : Hart} {ts : List Taken}

theorem Inv.code (h : Inv pcb area ⟨s, ts⟩) {s' : Hart} (hk : Keeps pcb area s s') :
    Inv pcb area ⟨s', ts⟩ where
  apart := h.apart
  zero := hk.zero
  tp := hk.tp.trans h.tp
  context := hk.context.trans h.context
  smode hne := hk.smode.trans (h.smode hne)
  held := by
    rw [frameAt_congr h.context (hk.context.trans h.context) hk.userSp hk.area]
    exact h.held
  spp := h.spp
  inner := h.inner

theorem Inv.trap (h : Inv pcb area ⟨s, ts⟩) (cause tval : Word64) :
    Inv pcb area ⟨enter s stvec cause tval,
      taking s stvec cause tval :: ts.map Taken.interrupt⟩ where
  apart := h.apart
  zero := (enter_x s stvec cause tval).1.trans h.zero
  tp := (enter_x s stvec cause tval).2.trans h.tp
  context := enter_context h.apart h.tp h.context stvec cause tval
  smode _ := enter_smode s stvec cause tval
  held := by
    rw [enter_frameAt h.apart h.tp h.context]
    refine ⟨h.zero, h.tp, fun _ => rfl, fun hn => absurd hn Bool.false_ne_true, ?_⟩
    rintro u hu
    obtain ⟨t, -, rfl⟩ := List.mem_map.mp hu
    rfl
  spp t ht := by
    rcases List.mem_cons.mp ht with rfl | ht
    · refine (takeTrap_spp s stvec cause tval).trans ?_
      show _ ↔ (!s.smode) = false
      rw [Bool.not_eq_false']
    · obtain ⟨u, hu, rfl⟩ := List.mem_map.mp ht
      exact h.spp u hu
  inner t ht := by
    cases ts with
    | nil => cases ht
    | cons u us =>
      rcases List.mem_cons.mp ht with rfl | ht
      · show (!s.smode) = false
        rw [Bool.not_eq_false']
        exact h.smode (List.cons_ne_nil u us)
      · rw [← List.map_cons, ← List.map_dropLast] at ht
        obtain ⟨v, hv, rfl⟩ := List.mem_map.mp ht
        exact h.inner v hv

/-- A handler's write to the area is a write to the context of its trap. -/
theorem Inv.update {t : Taken} (h : Inv pcb area ⟨s, t :: ts⟩) {i : ℕ} (hi : i < 36) (v : Word64)
    {f : Frame → Frame} (hs : ∀ g, (f g).sstatus = g.sstatus) (h0 : ∀ g, (f g).x 0 = g.x 0)
    (htp : ∀ g, (f g).x Trap.tp = g.x Trap.tp)
    (hm : frameAt (Function.update s.mem (at64 area (8 * i)) v) pcb = f (frameAt s.mem pcb))
    (ht : t.nested = false → f (frameAt s.mem pcb) = f t.frame) :
    Inv pcb area ⟨s.store (at64 area (8 * i)) v, { t with frame := f t.frame } :: ts⟩ where
  apart := h.apart
  zero := h.zero
  tp := h.tp
  context := (update_fields h.apart v hi).1.trans h.context
  smode _ := h.smode (List.cons_ne_nil t ts)
  held := by
    obtain ⟨hz, hp, hclean, hspp, hrest⟩ := h.held
    show Held (frameAt (Function.update s.mem (at64 area (8 * i)) v) pcb) pcb _
    rw [hm]
    refine ⟨(h0 _).trans hz, (htp _).trans hp, ht, fun hn => ?_, hrest⟩
    unfold Frame.Spp
    rw [hs]
    exact hspp hn
  spp u hu := by
    rcases List.mem_cons.mp hu with rfl | hu
    · refine Iff.trans ?_ (h.spp t List.mem_cons_self)
      unfold Frame.Spp
      rw [hs]
    · exact h.spp u (List.mem_cons_of_mem _ hu)
  inner u hu := by
    cases ts with
    | nil => cases hu
    | cons w ws =>
      rcases List.mem_cons.mp hu with rfl | hu
      · exact h.inner t List.mem_cons_self
      · exact h.inner u (List.mem_cons_of_mem _ hu)

theorem Inv.leave {t : Taken} (h : Inv pcb area ⟨s, t :: ts⟩) :
    Inv pcb area ⟨Trap.leave s, ts⟩ := by
  obtain ⟨hz, hp, hclean, hspp, hrest⟩ := h.held
  have htp : s.x Trap.tp = pcb := h.tp
  obtain ⟨hframe, -, hmem⟩ := restore_eq (s := s) h.zero (by rw [htp]; exact hz)
    (by rw [htp]; exact hp)
  rw [htp] at hframe
  have hx : (Trap.leave s).x = (frameAt s.mem pcb).x := congrArg Frame.x hframe
  have hsstatus : (s.line restoreContext).csr .sstatus = (frameAt s.mem pcb).sstatus :=
    congrArg Frame.sstatus hframe
  have hm : (Trap.leave s).mem = s.mem := hmem
  -- inside another trap this one was taken in supervisor mode, so the area says so
  have hmode (hne : ts ≠ []) : (frameAt s.mem pcb).Spp := by
    cases hn : t.nested with
    | true => exact hspp hn
    | false =>
      rw [hclean hn]
      refine (h.spp t List.mem_cons_self).mpr (h.inner t ?_)
      rw [List.dropLast_cons_of_ne_nil hne]
      exact List.mem_cons_self
  exact {
    apart := h.apart
    zero := by rw [hx]; exact hz
    tp := by rw [hx]; exact hp
    context := by rw [hm]; exact h.context
    smode := fun hne => by
      show decide (_ &&& srSpp ≠ 0) = true
      rw [decide_eq_true_eq, hsstatus]
      exact hmode hne
    held := by
      rw [hm]
      cases ts with
      | nil => trivial
      | cons u us =>
        have hu : u.nested = true := hrest u List.mem_cons_self
        exact ⟨hz, hp, fun hn => absurd (hn.symm.trans hu) Bool.false_ne_true,
          fun _ => hmode (List.cons_ne_nil u us),
          fun w hw => hrest w (List.mem_cons_of_mem _ hw)⟩
    spp := fun u hu => h.spp u (List.mem_cons_of_mem _ hu)
    inner := fun u hu => h.inner u (by
      cases ts with
      | nil => cases hu
      | cons w ws => exact List.mem_cons_of_mem _ hu) }

end keep

theorem step_inv {pcb area stvec : Word64} {s s' : St} (h : Inv pcb area s)
    (hs : Step pcb area stvec s s') : Inv pcb area s' := by
  cases hs with
  | code hk => exact h.code hk
  | trap cause tval => exact h.trap cause tval
  | advance =>
    rename_i s t ts
    have hm := frameAt_update_sepc h.apart h.context (s.mem (at64 area offsetSepc) + 4)
    obtain ⟨-, -, hclean, -, -⟩ := h.held
    have hsepc : s.mem (at64 area offsetSepc) = (frameAt s.mem pcb).sepc := by
      rw [← h.context]
      rfl
    refine h.update (i := 33) (by decide) _ (f := fun g => { g with sepc := g.sepc + 4 })
      (fun _ => rfl) (fun _ => rfl) (fun _ => rfl) ?_ fun hn => by rw [hclean hn]
    rw [hsepc] at hm ⊢
    exact hm
  | setResult v =>
    rename_i s t ts
    obtain ⟨-, -, hclean, -, -⟩ := h.held
    exact h.update (i := 10) (by decide) v
      (f := fun g => { g with x := Function.update g.x 10 v })
      (fun _ => rfl) (fun g => Function.update_of_ne (show (0 : Fin 32) ≠ 10 by decide) v g.x)
      (fun g => Function.update_of_ne (show (tp : Fin 32) ≠ 10 by decide) v g.x)
      (frameAt_update_a0 h.apart h.context v) fun hn => by rw [hclean hn]
  | leave => exact h.leave

theorem reach_inv {pcb area stvec : Word64} {s : St} (h : Reach pcb area stvec s) :
    Inv pcb area s := by
  obtain ⟨s₀, hstart, hsteps⟩ := h
  induction hsteps with
  | refl => exact Inv.start hstart
  | tail _ hs ih => exact step_inv ih hs

/-! ## Leaving a trap -/

/-- In every run: leaving a trap inside which no other trap was taken gives back its context. A
trap from user mode gets its context back in no other case. -/
theorem run_restores {pcb area stvec : Word64} {s : Hart} {t : Taken} {ts : List Taken}
    (h : Reach pcb area stvec ⟨s, t :: ts⟩) :
    (t.nested = false → Restores s t) ∧ (t.user = true → Restores s t → t.nested = false) := by
  have hi := reach_inv h
  obtain ⟨hz, hp, hclean, hspp, -⟩ := hi.held
  have htp : s.x tp = pcb := hi.tp
  obtain ⟨hframe, -, -⟩ := restore_eq (s := s) hi.zero (by rw [htp]; exact hz)
    (by rw [htp]; exact hp)
  rw [htp] at hframe
  have hmode := hi.spp t List.mem_cons_self
  constructor
  · intro hn
    have hctx : frameOf (s.line restoreContext) = t.frame := hframe.trans (hclean hn)
    refine ⟨hctx, fun hu => ⟨?_, congrArg Frame.sepc hctx⟩⟩
    have hnot : ¬ t.frame.Spp := fun hs => by
      rw [hmode.mp hs] at hu
      cases hu
    show decide (_ &&& srSpp ≠ 0) = false
    rw [decide_eq_false_iff_not]
    rw [← hctx] at hnot
    exact hnot
  · rintro hu hr
    cases hn : t.nested with
    | false => rfl
    | true =>
      have hs : t.frame.Spp := by
        rw [← hr.context, hframe]
        exact hspp hn
      rw [hmode.mp hs] at hu
      cases hu

/-! ## A page fault inside a system call -/

/-- A user program at `0x10000`, with its PCB at `0x1000` and the save area at `0x2000`. -/
def program : Hart :=
  { x := fun r => if r = tp then 0x1000 else 0
    csr := fun _ => 0
    pc := 0x10000
    smode := false
    mem := fun a => if a = 0x1010 then 0x2000 else 0 }

theorem program_start : Start 0x1000 0x2000 ⟨program, []⟩ where
  apart := by unfold Apart; decide +kernel
  zero := rfl
  tp := rfl
  context := rfl
  taken := rfl

/-- `ecall` -/
def called : Hart := enter program 0xffffffc050203000 8 0

/-- The copy of `do_read`, at its store to a user page that is not present. -/
def copying : Hart := { called with pc := 0xffffffc050210000 }

/-- The page fault. -/
def faulted : Hart := enter copying 0xffffffc050203000 15 0x30000

/-- A system call without a fault gives back its context and returns to user mode. -/
theorem restores_call : Restores called (taking program 0xffffffc050203000 8 0) :=
  (run_restores (show Reach 0x1000 0x2000 0xffffffc050203000
    ⟨called, [taking program 0xffffffc050203000 8 0]⟩ from
      ⟨_, program_start, ReflTransGen.single (Step.trap 8 0)⟩)).1 rfl

/-- The page fault inside the copy is handled; then the system call leaves to the copy, in
supervisor mode, instead of to its caller. -/
theorem nested_lost : ∃ t : Taken,
    Reach 0x1000 0x2000 0xffffffc050203000 ⟨leave faulted, [t]⟩ ∧
      t.user = true ∧ t.frame.sepc = 0x10000 ∧
      (leave (leave faulted)).smode = true ∧
      (leave (leave faulted)).pc = 0xffffffc050210000 ∧ ¬ Restores (leave faulted) t := by
  have hpc : (leave (leave faulted)).pc = 0xffffffc050210000 := by decide +kernel
  have hsepc : (taking program 0xffffffc050203000 8 0).frame.sepc = 0x10000 := by decide +kernel
  refine ⟨(taking program 0xffffffc050203000 8 0).interrupt, ?_, rfl, hsepc, by decide +kernel, hpc,
    fun h => ?_⟩
  · refine ⟨_, program_start, ?_⟩
    have hcall : Step 0x1000 0x2000 0xffffffc050203000 ⟨program, []⟩ ⟨called, _⟩ := Step.trap 8 0
    have hcopy : Keeps 0x1000 0x2000 called copying := Keeps.jump (enter_x program _ 8 0).1 _
    exact ((((ReflTransGen.single hcall).tail (Step.code hcopy)).tail (Step.trap 15 0x30000)).tail
      Step.leave)
  · have := (h.back rfl).2
    rw [hpc] at this
    exact absurd (this.trans hsepc) (by decide)

end RiscvKernel.Trap
