import RiscvKernel.Lib.Hart

/-!
# Saving and restoring a context

`SAVE_CONTEXT` and `RESTORE_CONTEXT` of `entry.S`, instruction by instruction. `tp` points to the
PCB; the general registers and CSRs go to the area that `full_context` points to, the stack pointer
to the field `user_sp`.

`frameAt` is the context that a PCB holds. The two macros are used through their specifications:
after a save the PCB holds the registers of before (`frameAt_save`), after a restore the registers
are those of the PCB (`restore_eq`).
-/

namespace RiscvKernel.Trap

open Lib Hart

/-! ## The macros -/

/-- `PCB_USER_SP` and `PCB_CONTEXT` -/
abbrev pcbUserSp : ℕ := 8
abbrev pcbContext : ℕ := 16

/-- `OFFSET_REG_SSTATUS` and the following ones -/
abbrev offsetSstatus : ℕ := 256
abbrev offsetSepc : ℕ := 264
abbrev offsetSbadaddr : ℕ := 272
abbrev offsetScause : ℕ := 280

/-- `sp`, `tp` and the temporaries by number. -/
abbrev sp : Fin 32 := 2
abbrev tp : Fin 32 := 4
abbrev t0 : Fin 32 := 5
abbrev t1 : Fin 32 := 6
abbrev t2 : Fin 32 := 7
abbrev t3 : Fin 32 := 28

/-- `SR_SUM` -/
def srSum : Word64 := 0x40000

/-- The registers saved in the area, in the order of the macros: all but `sp`. -/
def gprs : List (Fin 32) :=
  [0, 1, 3, 4, 5, 6, 7, 8, 9, 10, 11, 12, 13, 14, 15, 16, 17, 18, 19, 20, 21, 22, 23, 24, 25, 26,
    27, 28, 29, 30, 31]

/-- The end of `SAVE_CONTEXT`: user memory access is allowed, and the CSRs are saved. -/
def saveCsrs : List Instr :=
  [.li t0 srSum, .csrs .sstatus t0,
    .csrr t0 .sstatus, .csrr t1 .sepc, .csrr t2 .stval, .csrr t3 .scause,
    .sd t0 offsetSstatus sp, .sd t1 offsetSepc sp, .sd t2 offsetSbadaddr sp, .sd t3 offsetScause sp]

/-- `SAVE_CONTEXT` -/
def saveContext : List Instr :=
  [.sd sp pcbUserSp tp, .ld sp pcbContext tp] ++ (saveRegs sp gprs ++ saveCsrs)

/-- The start of `RESTORE_CONTEXT`. -/
def restoreCsrs : List Instr :=
  [.ld sp pcbContext tp,
    .ld t0 offsetSstatus sp, .ld t1 offsetSepc sp, .ld t2 offsetSbadaddr sp, .ld t3 offsetScause sp,
    .csrw .sstatus t0, .csrw .sepc t1, .csrw .stval t2, .csrw .scause t3]

/-- `RESTORE_CONTEXT` -/
def restoreContext : List Instr :=
  restoreCsrs ++ (loadRegs sp gprs ++ [.ld sp pcbUserSp tp])

/-! ## Contexts -/

/-- `regs_context_t`, with the stack pointer of the PCB in its place. -/
@[ext]
structure Frame where
  x : Fin 32 → Word64
  sstatus : Word64
  sepc : Word64
  sbadaddr : Word64
  scause : Word64

/-- The context that a PCB holds. -/
def frameAt (m : Mem64) (pcb : Word64) : Frame :=
  let area := m (at64 pcb pcbContext)
  { x := fun r => if r = sp then m (at64 pcb pcbUserSp) else m (at64 area (8 * r.val))
    sstatus := m (at64 area offsetSstatus)
    sepc := m (at64 area offsetSepc)
    sbadaddr := m (at64 area offsetSbadaddr)
    scause := m (at64 area offsetScause) }

/-- The context that a hart runs with. -/
def frameOf (s : Hart) : Frame :=
  ⟨s.x, s.csr .sstatus, s.csr .sepc, s.csr .stval, s.csr .scause⟩

/-- What a save stores: `SUM` is set before `sstatus` is read. -/
def savedFrame (s : Hart) : Frame := { frameOf s with sstatus := s.csr .sstatus ||| srSum }

/-- The fields of the PCB lie outside its save area. -/
def Apart (pcb area : Word64) : Prop :=
  ∀ i < 36, at64 pcb pcbUserSp ≠ at64 area (8 * i) ∧ at64 pcb pcbContext ≠ at64 area (8 * i)

theorem mem_gprs (r : Fin 32) : r ∈ gprs ↔ r ≠ sp := by
  revert r
  decide

/-! ## The specifications -/

/-- `s` with the general registers saved and `sp` at the area. -/
def gprsSaved (s : Hart) : Hart :=
  let area := s.mem (at64 (s.x tp) pcbContext)
  let x := Function.update s.x sp area
  { s with
    x := x
    mem := putRegs (Function.update s.mem (at64 (s.x tp) pcbUserSp) (s.x sp)) area x gprs }

theorem line_saveContext (s : Hart) : s.line saveContext = (gprsSaved s).line saveCsrs := by
  have hne : at64 (s.x tp) pcbContext ≠ at64 (s.x tp) pcbUserSp :=
    fun h => absurd ((at64_inj (by decide) (by decide)).mp h) (by decide)
  have hctx : (s.store (at64 (s.x tp) pcbUserSp) (s.x sp)).mem (at64 (s.x tp) pcbContext) =
      s.mem (at64 (s.x tp) pcbContext) := Function.update_of_ne hne _ _
  have hsp : Function.update s.x sp (s.mem (at64 (s.x tp) pcbContext)) sp =
      s.mem (at64 (s.x tp) pcbContext) := Function.update_self ..
  unfold saveContext
  rw [line_append, line_append]
  show ((((s.store (at64 (s.x tp) pcbUserSp) (s.x sp)).setReg sp
    ((s.store (at64 (s.x tp) pcbUserSp) (s.x sp)).mem (at64 (s.x tp) pcbContext))).line
      (saveRegs sp gprs)).line saveCsrs) = _
  rw [hctx, line_saveRegs]
  unfold gprsSaved
  dsimp only
  conv_rhs => rw [← hsp]
  rw [hsp]
  rfl

/-- The CSRs of `u` stored in the area at `a`. -/
def putCsrs (u : Hart) (a : Word64) (m : Mem64) : Mem64 :=
  Function.update (Function.update (Function.update (Function.update m
    (at64 a offsetSstatus) (u.csr .sstatus ||| srSum)) (at64 a offsetSepc) (u.csr .sepc))
    (at64 a offsetSbadaddr) (u.csr .stval)) (at64 a offsetScause) (u.csr .scause)

theorem line_saveCsrs (u : Hart) :
    (u.line saveCsrs).mem = putCsrs u (u.x sp) u.mem ∧
      (u.line saveCsrs).smode = u.smode ∧
      ∀ r, r ≠ t0 → r ≠ t1 → r ≠ t2 → r ≠ t3 → (u.line saveCsrs).x r = u.x r := by
  refine ⟨?_, ?_, ?_⟩
  · simp [saveCsrs, line, exec, setReg, setCsr, store, putCsrs, sp, t0, t1, t2, t3]
  · simp [saveCsrs, line, exec, setReg, setCsr, store, t0, t1, t2, t3]
  · intro r h0 h1 h2 h3
    simp [saveCsrs, line, exec, setReg, setCsr, store, t0, t1, t2, t3] at *
    simp [h0, h1, h2, h3]

theorem putCsrs_of_ne {u : Hart} {a c : Word64} {m : Mem64}
    (h : ∀ i, 32 ≤ i → i < 36 → c ≠ at64 a (8 * i)) : putCsrs u a m c = m c := by
  unfold putCsrs
  rw [Function.update_of_ne (h 35 (by decide) (by decide)),
    Function.update_of_ne (h 34 (by decide) (by decide)),
    Function.update_of_ne (h 33 (by decide) (by decide)),
    Function.update_of_ne (h 32 (by decide) (by decide))]

section save
variable {s : Hart} (hapart : Apart (s.x tp) (s.mem (at64 (s.x tp) pcbContext)))

/-- The memory after a save. -/
theorem save_mem (s : Hart) : (s.line saveContext).mem =
    putCsrs s (s.mem (at64 (s.x tp) pcbContext))
      (putRegs (Function.update s.mem (at64 (s.x tp) pcbUserSp) (s.x sp))
        (s.mem (at64 (s.x tp) pcbContext))
        (Function.update s.x sp (s.mem (at64 (s.x tp) pcbContext))) gprs) := by
  rw [line_saveContext, (line_saveCsrs _).1]
  have hsp : (gprsSaved s).x sp = s.mem (at64 (s.x tp) pcbContext) := by simp [gprsSaved]
  rw [hsp]
  rfl

/-- A save writes to the area and to `user_sp` only. -/
theorem save_mem_of_ne {c : Word64} (hsp : c ≠ at64 (s.x tp) pcbUserSp)
    (harea : ∀ i < 36, c ≠ at64 (s.mem (at64 (s.x tp) pcbContext)) (8 * i)) :
    (s.line saveContext).mem c = s.mem c := by
  rw [save_mem, putCsrs_of_ne fun i _ hi => harea i hi,
    putRegs_of_not_mem fun r _ => harea r (by omega)]
  exact Function.update_of_ne hsp _ _

theorem save_x {r : Fin 32} (hsp : r ≠ sp) (h0 : r ≠ t0) (h1 : r ≠ t1) (h2 : r ≠ t2)
    (h3 : r ≠ t3) : (s.line saveContext).x r = s.x r := by
  rw [line_saveContext, (line_saveCsrs _).2.2 r h0 h1 h2 h3]
  exact Function.update_of_ne hsp _ _

theorem save_smode : (s.line saveContext).smode = s.smode := by
  rw [line_saveContext, (line_saveCsrs _).2.1]
  rfl

include hapart

/-- The area's address is kept. -/
theorem save_context :
    (s.line saveContext).mem (at64 (s.x tp) pcbContext) = s.mem (at64 (s.x tp) pcbContext) := by
  apply save_mem_of_ne
  · exact fun h => absurd ((at64_inj (by decide) (by decide)).mp h) (by decide)
  · exact fun i hi => (hapart i hi).2

/-- After a save the PCB holds the context of before. -/
theorem frameAt_save : frameAt (s.line saveContext).mem (s.x tp) = savedFrame s := by
  unfold frameAt
  rw [save_context hapart]
  rw [save_mem]
  generalize s.mem (at64 (s.x tp) pcbContext) = area at *
  have hslot (i j : ℕ) (hi : i < 36) (hj : j < 36) (h : i ≠ j) : at64 area (8 * i) ≠ at64 area (8 * j) :=
    fun he => h (by have := (at64_inj (by omega) (by omega)).mp he; omega)
  apply Frame.ext
  · funext r
    by_cases hr : r = sp
    · dsimp only
      rw [if_pos hr, putCsrs_of_ne fun i _ hi => (hapart i hi).1,
        putRegs_of_not_mem fun q _ => (hapart q (by omega)).1, Function.update_self, hr]
      rfl
    · dsimp only
      rw [if_neg hr, putCsrs_of_ne fun i h1 h2 => hslot r i (by omega) h2 (by omega),
        putRegs_of_mem ((mem_gprs r).mpr hr), Function.update_of_ne hr]
      rfl
  all_goals
    dsimp only [putCsrs]
  · rw [Function.update_of_ne (hslot 32 35 (by decide) (by decide) (by decide)),
      Function.update_of_ne (hslot 32 34 (by decide) (by decide) (by decide)),
      Function.update_of_ne (hslot 32 33 (by decide) (by decide) (by decide)), Function.update_self]
    rfl
  · rw [Function.update_of_ne (hslot 33 35 (by decide) (by decide) (by decide)),
      Function.update_of_ne (hslot 33 34 (by decide) (by decide) (by decide)), Function.update_self]
    rfl
  · rw [Function.update_of_ne (hslot 34 35 (by decide) (by decide) (by decide)),
      Function.update_self]
    rfl
  · rw [Function.update_self]
    rfl

end save

/-- The hart after the CSRs are restored. -/
theorem line_restoreCsrs (s : Hart) :
    (s.line restoreCsrs).mem = s.mem ∧ (s.line restoreCsrs).smode = s.smode ∧
      (s.line restoreCsrs).x sp = s.mem (at64 (s.x tp) pcbContext) ∧
      (s.line restoreCsrs).x 0 = s.x 0 ∧
      frameAt s.mem (s.x tp) = { frameOf (s.line restoreCsrs) with
        x := (frameAt s.mem (s.x tp)).x } := by
  refine ⟨?_, ?_, ?_, ?_, ?_⟩ <;>
    simp [restoreCsrs, line, exec, setReg, setCsr, frameOf, frameAt, sp, tp, t0, t1, t2, t3,
      Function.update]

/-- A restore gives the hart the context that the PCB holds, and changes nothing else. The saved
`tp` must be the PCB itself: the last load goes through it. -/
theorem restore_eq {s : Hart} (hx : s.x 0 = 0) (h0 : (frameAt s.mem (s.x tp)).x 0 = 0)
    (htp : (frameAt s.mem (s.x tp)).x tp = s.x tp) :
    frameOf (s.line restoreContext) = frameAt s.mem (s.x tp) ∧
      (s.line restoreContext).smode = s.smode ∧ (s.line restoreContext).mem = s.mem := by
  obtain ⟨hmem, hmode, hsp, hzero, hframe⟩ := line_restoreCsrs s
  have hbase : sp ∉ gprs := fun h => (mem_gprs sp).mp h rfl
  have htp' : s.mem (at64 (s.mem (at64 (s.x tp) pcbContext)) (8 * (tp : Fin 32).val)) = s.x tp := htp
  have h0' : s.mem (at64 (s.mem (at64 (s.x tp) pcbContext)) (8 * (0 : Fin 32).val)) = 0 := h0
  unfold restoreContext
  rw [line_append, line_append, line_loadRegs _ _ _ hbase, hmem, hsp]
  generalize s.line restoreCsrs = u at *
  refine ⟨?_, hmode, rfl⟩
  rw [hframe]
  refine congrArg (fun x => Frame.mk x _ _ _ _) (funext fun r => ?_)
  -- the last load goes through the restored `tp`
  have hlast : (if tp ∈ gprs ∧ tp ≠ 0 then
      s.mem (at64 (s.mem (at64 (s.x tp) pcbContext)) (8 * (tp : Fin 32).val)) else u.x tp) = s.x tp := by
    rw [if_pos (by decide), htp']
  generalize hv : ({ u with
    x := fun r => if r ∈ gprs ∧ r ≠ 0 then
      s.mem (at64 (s.mem (at64 (s.x tp) pcbContext)) (8 * r.val)) else u.x r
    mem := s.mem } : Hart) = v
  show (v.setReg sp (v.mem (at64 (v.x tp) pcbUserSp))).x r = _
  rw [show v.x tp = s.x tp by rw [← hv]; exact hlast, show v.mem = s.mem by rw [← hv]]
  unfold frameAt
  dsimp only
  by_cases hr : r = sp
  · rw [setReg_x _ _ _ _ (by decide), if_pos hr, if_pos hr]
  · rw [setReg_x_of_ne hr, if_neg hr]
    by_cases hr0 : r = 0
    · subst hr0
      rw [h0', ← hzero.trans hx, ← hv]
      simp only [ne_eq, not_true_eq_false, and_false, if_false]
    · rw [← hv]
      exact if_pos ⟨(mem_gprs r).mpr hr, hr0⟩

end RiscvKernel.Trap
