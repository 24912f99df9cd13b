import Mathlib.Tactic

/-!
# A hart in straight-line code

The registers, the trap CSRs and the memory of one RISC-V hart in supervisor mode, the few
instructions that a trap entry is made of, and the two privilege changes of the hardware: taking a
trap and `sret`. Memory is a function on addresses of doublewords; all accesses are aligned.

A block that saves registers at consecutive offsets from a base register, or loads them from
there, is described once for every list of registers (`line_saveRegs`, `line_loadRegs`).
-/

namespace RiscvKernel.Lib

/-- A 64-bit register value or address. -/
abbrev Word64 := BitVec 64

/-- A memory of doublewords. -/
abbrev Mem64 := Word64 → Word64

/-- The CSRs of a trap. -/
inductive Csr
  | sstatus
  | sepc
  | stval
  | scause
  deriving DecidableEq

instance neZeroRegs : NeZero 32 := ⟨by decide⟩

/-- A hart with its memory. `x 0` is the zero register. -/
structure Hart where
  x : Fin 32 → Word64
  csr : Csr → Word64
  pc : Word64
  smode : Bool
  mem : Mem64

/-- The instructions of a trap entry; offsets are in bytes. -/
inductive Instr
  | sd (rs : Fin 32) (off : ℕ) (base : Fin 32)
  | ld (rd : Fin 32) (off : ℕ) (base : Fin 32)
  | li (rd : Fin 32) (v : Word64)
  | csrr (rd : Fin 32) (c : Csr)
  | csrw (c : Csr) (rs : Fin 32)
  | csrs (c : Csr) (rs : Fin 32)

/-- The address at an offset. -/
def at64 (a : Word64) (off : ℕ) : Word64 := a + BitVec.ofNat 64 off

theorem at64_inj {a : Word64} {i j : ℕ} (hi : i < 2 ^ 64) (hj : j < 2 ^ 64) :
    at64 a i = at64 a j ↔ i = j := by
  unfold at64
  rw [BitVec.add_right_inj]
  constructor
  · intro h
    have := congrArg BitVec.toNat h
    rwa [BitVec.toNat_ofNat, BitVec.toNat_ofNat, Nat.mod_eq_of_lt hi, Nat.mod_eq_of_lt hj] at this
  · rintro rfl
    rfl

namespace Hart

/-- Write a register; writes to the zero register are ignored. -/
def setReg (s : Hart) (r : Fin 32) (v : Word64) : Hart :=
  if r = 0 then s else { s with x := Function.update s.x r v }

def setCsr (s : Hart) (c : Csr) (v : Word64) : Hart :=
  { s with csr := Function.update s.csr c v }

def store (s : Hart) (a v : Word64) : Hart := { s with mem := Function.update s.mem a v }

/-- One instruction. -/
def exec (s : Hart) : Instr → Hart
  | .sd rs off base => s.store (at64 (s.x base) off) (s.x rs)
  | .ld rd off base => s.setReg rd (s.mem (at64 (s.x base) off))
  | .li rd v => s.setReg rd v
  | .csrr rd c => s.setReg rd (s.csr c)
  | .csrw c rs => s.setCsr c (s.x rs)
  | .csrs c rs => s.setCsr c (s.csr c ||| s.x rs)

/-- A straight line of instructions. -/
def line (s : Hart) (is : List Instr) : Hart := is.foldl exec s

theorem line_append (s : Hart) (is js : List Instr) : s.line (is ++ js) = (s.line is).line js :=
  List.foldl_append

/-! ## Blocks of stores and loads -/

/-- Store the registers `rs`, each at eight times its number from `base`. -/
def saveRegs (base : Fin 32) (rs : List (Fin 32)) : List Instr :=
  rs.map fun r => .sd r (8 * r.val) base

/-- Load the registers `rs` from there. -/
def loadRegs (base : Fin 32) (rs : List (Fin 32)) : List Instr :=
  rs.map fun r => .ld r (8 * r.val) base

/-- `m` with the registers `rs` stored at `a`. -/
def putRegs (m : Mem64) (a : Word64) (x : Fin 32 → Word64) (rs : List (Fin 32)) : Mem64 :=
  rs.foldl (fun m r => Function.update m (at64 a (8 * r.val)) (x r)) m

theorem line_saveRegs (s : Hart) (base : Fin 32) (rs : List (Fin 32)) :
    s.line (saveRegs base rs) = { s with mem := putRegs s.mem (s.x base) s.x rs } := by
  induction rs generalizing s with
  | nil => rfl
  | cons r rs ih => exact ih (s.store (at64 (s.x base) (8 * r)) (s.x r))

theorem putRegs_of_not_mem {m : Mem64} {a c : Word64} {x : Fin 32 → Word64} {rs : List (Fin 32)}
    (h : ∀ r ∈ rs, c ≠ at64 a (8 * r.val)) : putRegs m a x rs c = m c := by
  induction rs generalizing m with
  | nil => rfl
  | cons r rs ih =>
    refine (ih fun r' hr' => h r' (List.mem_cons_of_mem _ hr')).trans ?_
    exact Function.update_of_ne (h r List.mem_cons_self) _ _

theorem putRegs_of_mem {m : Mem64} {a : Word64} {x : Fin 32 → Word64} {rs : List (Fin 32)}
    {r : Fin 32} (hr : r ∈ rs) : putRegs m a x rs (at64 a (8 * r.val)) = x r := by
  induction rs generalizing m with
  | nil => cases hr
  | cons r' rs ih =>
    by_cases h : r ∈ rs
    · exact ih h
    · obtain rfl : r = r' := (List.mem_cons.mp hr).resolve_right h
      show putRegs (Function.update m (at64 a (8 * r.val)) (x r)) a x rs _ = x r
      rw [putRegs_of_not_mem, Function.update_self]
      intro q hq he
      have := (at64_inj (by omega) (by omega)).mp he
      exact h (Fin.ext (show r.val = q.val by omega) ▸ hq)

theorem setReg_x (s : Hart) (r q : Fin 32) (v : Word64) (hr : r ≠ 0) :
    (s.setReg r v).x q = if q = r then v else s.x q := by
  unfold setReg
  rw [if_neg hr]
  exact Function.update_apply ..

theorem setReg_x_of_ne {s : Hart} {r q : Fin 32} {v : Word64} (h : q ≠ r) :
    (s.setReg r v).x q = s.x q := by
  unfold setReg
  split
  · rfl
  · exact Function.update_of_ne h _ _

@[simp] theorem setReg_mem (s : Hart) (r : Fin 32) (v : Word64) : (s.setReg r v).mem = s.mem := by
  unfold setReg; split <;> rfl

@[simp] theorem setReg_csr (s : Hart) (r : Fin 32) (v : Word64) : (s.setReg r v).csr = s.csr := by
  unfold setReg; split <;> rfl

@[simp] theorem setReg_pc (s : Hart) (r : Fin 32) (v : Word64) : (s.setReg r v).pc = s.pc := by
  unfold setReg; split <;> rfl

@[simp] theorem setReg_smode (s : Hart) (r : Fin 32) (v : Word64) :
    (s.setReg r v).smode = s.smode := by
  unfold setReg; split <;> rfl

/-- A block of loads changes the registers it names and nothing else. -/
theorem line_loadRegs (s : Hart) (base : Fin 32) (rs : List (Fin 32)) (hbase : base ∉ rs) :
    s.line (loadRegs base rs) =
      { s with x := fun r => if r ∈ rs ∧ r ≠ 0 then s.mem (at64 (s.x base) (8 * r.val)) else s.x r } := by
  induction rs generalizing s with
  | nil => simp [loadRegs, line]
  | cons r rs ih =>
    have hne : base ≠ r := fun h => hbase (h ▸ List.mem_cons_self)
    have hrs : base ∉ rs := fun h => hbase (List.mem_cons_of_mem _ h)
    refine (ih (s.setReg r (s.mem (at64 (s.x base) (8 * r)))) hrs).trans ?_
    rw [setReg_x_of_ne hne]
    simp only [setReg_mem, setReg_csr, setReg_pc, setReg_smode]
    congr 1
    funext q
    by_cases hq : q ∈ rs ∧ q ≠ 0
    · rw [if_pos hq, if_pos ⟨List.mem_cons_of_mem _ hq.1, hq.2⟩]
    · rw [if_neg hq]
      by_cases hr : q = r
      · subst hr
        by_cases h0 : q = 0
        · rw [if_neg fun h => h.2 h0]
          unfold setReg
          rw [if_pos h0]
        · rw [setReg_x _ _ _ _ h0, if_pos rfl, if_pos ⟨List.mem_cons_self, h0⟩]
      · rw [setReg_x_of_ne hr, if_neg]
        intro h
        exact hq ⟨(List.mem_cons.mp h.1).resolve_left hr, h.2⟩

/-! ## The privilege changes -/

/-- `SR_SIE`, `SR_SPIE` and `SR_SPP` of `sstatus`. -/
def srSie : Word64 := 0x2
def srSpie : Word64 := 0x20
def srSpp : Word64 := 0x100

/-- The hardware takes a trap: the interrupted mode goes to `SPP`, the interrupt enable to `SPIE`. -/
def takeTrap (s : Hart) (stvec cause tval : Word64) : Hart :=
  { s with
    csr := fun
      | .sstatus => (s.csr .sstatus &&& ~~~(srSie ||| srSpie ||| srSpp))
          ||| (if s.csr .sstatus &&& srSie ≠ 0 then srSpie else 0)
          ||| (if s.smode then srSpp else 0)
      | .sepc => s.pc
      | .stval => tval
      | .scause => cause
    pc := stvec
    smode := true }

/-- `sret` -/
def sret (s : Hart) : Hart :=
  { s.setCsr .sstatus ((s.csr .sstatus &&& ~~~(srSie ||| srSpie ||| srSpp))
      ||| (if s.csr .sstatus &&& srSpie ≠ 0 then srSie else 0) ||| srSpie) with
    pc := s.csr .sepc
    smode := s.csr .sstatus &&& srSpp ≠ 0 }

end Hart

end RiscvKernel.Lib
