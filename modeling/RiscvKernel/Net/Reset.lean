import RiscvKernel.Net.Integrity

/-!
# Starting a new stream

`do_reset_stream` sets the next expected byte back to 0 and leaves the reorder buffer as it is. What is
delivered and sent from then on depends on the past only through the reorder buffer.
-/

namespace RiscvKernel.Net

open Lib

variable {s s' s1 s2 : Stream} {k : RecvCall} {e : Entry} {p : Packet} {a : Act} {as : List Act} {now : ℕ}
  {d : List Byte} {c : List Control}

/-- The same state after more has been delivered and sent. -/
def after (d : List Byte) (c : List Control) (s : Stream) : Stream :=
  { s with delivered := d ++ s.delivered, sent := c ++ s.sent }

theorem insertReorderPacket_after {seq len : ℕ} {data : List Byte} :
    insertReorderPacket seq len data (after d c s) = after d c (insertReorderPacket seq len data s) := by
  unfold insertReorderPacket
  rw [show (after d c s).nextExpectSeq = s.nextExpectSeq from rfl,
    show (after d c s).reorderQueue = s.reorderQueue from rfl]
  split_ifs <;> rfl

theorem recvEntry_after : recvEntry now e k (after d c s) = after d c (recvEntry now e k s) := by
  simp [recvEntry, after]

theorem recvNothing_after : recvNothing now k (after d c s) = after d c (recvNothing now k s) := by
  unfold recvNothing
  split_ifs
  · rfl
  · simp [after]
  · rfl

theorem copyData_after : copyData p k (after d c s) = after d c (copyData p k s) := by
  simp [copyData, after]

theorem recvExpected_after : recvExpected p k (after d c s) = after d c (recvExpected p k s) := by
  unfold recvExpected
  rw [copyData_after]
  dsimp only
  split_ifs
  · exact insertReorderPacket_after
  · rfl

theorem sent_after (cs : List Control) (x : Control) (k : Option RecvCall) :
    { after d c s with sent := c ++ cs ++ [x], call := k } =
      after d c { s with sent := cs ++ [x], call := k } := by
  simp [after]

theorem recvData_after : recvData now p k (after d c s) = after d c (recvData now p k s) := by
  unfold recvData
  rw [show (after d c s).nextExpectSeq = s.nextExpectSeq from rfl]
  split_ifs
  · exact recvExpected_after
  · rw [insertReorderPacket_after]
    exact sent_after s.sent _ _
  · exact sent_after s.sent _ s.call

theorem recvRound_after {poll : Option Packet} :
    recvRound now poll k (after d c s) = (recvRound now poll k s).map (after d c) := by
  unfold recvRound
  rw [show (after d c s).nextExpectSeq = s.nextExpectSeq from rfl,
    show (after d c s).reorderQueue = s.reorderQueue from rfl]
  split_ifs
  · cases getReorderEntry s.nextExpectSeq s.reorderQueue with
    | some e => exact congrArg some recvEntry_after
    | none =>
      cases poll with
      | none => exact congrArg some recvNothing_after
      | some p =>
        dsimp only
        split_ifs
        · rfl
        · exact congrArg some recvData_after
        · rfl
  · rfl

/-- A step does the same whatever has been delivered and sent before. -/
theorem step_after : step (after d c s) a = (step s a).map (after d c) := by
  have hcall : (after d c s).call = s.call := rfl
  cases a with
  | recv wanted now =>
    rw [step, step, hcall]
    split_ifs <;> rfl
  | reset =>
    rw [step, step, hcall]
    split_ifs <;> rfl
  | round now poll =>
    rw [step, step, hcall]
    cases s.call with
    | none => rfl
    | some k => exact recvRound_after

theorem next_after : next (after d c s) a = after d c (next s a) := by
  rw [next, next, step_after]
  cases step s a <;> rfl

theorem run_after : Run.run next (after d c s) as = after d c (Run.run next s as) := by
  induction as generalizing s with
  | nil => rfl
  | cons a as ih =>
    show Run.run next (next (after d c s) a) as = after d c (Run.run next (next s a) as)
    rw [next_after, ih]

/-- After a reset the same is delivered and sent in both runs. -/
def SameAfterReset (s1 s2 : Stream) : Prop :=
  ∀ as, ∃ d c,
    (Run.run next s1 (.reset :: as)).delivered = s1.delivered ++ d ∧
    (Run.run next s1 (.reset :: as)).sent = s1.sent ++ c ∧
    (Run.run next s2 (.reset :: as)).delivered = s2.delivered ++ d ∧
    (Run.run next s2 (.reset :: as)).sent = s2.sent ++ c

/-- A history: any steps that are possible. -/
def History (s : Stream) (a : Act) : Prop := step s a ≠ none

instance (s : Stream) (a : Act) : Decidable (History s a) := inferInstanceAs (Decidable (_ ≠ none))

/-- The call gives up: the device has had nothing for a long time. -/
def givesUp : Act := .round (2 * recvTimeoutTicks) none

end RiscvKernel.Net
