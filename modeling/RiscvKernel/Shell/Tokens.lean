import RiscvKernel.Lib.Words

/-!
# The command line

`parse_input` cuts the line into its words where they stand: the first one is copied to `command`, for
the others `argv` gets a pointer into the line and the blank behind them becomes a terminator. The
functions are those of `tiny_libc/shell_tools.c`.

The array of the caller has room for a name of `MAX_NAME_LEN` bytes and the terminator, but one byte
more of the name is copied. So the line is parsed as it should be exactly when its first word is not
longer than `MAX_NAME_LEN` (`parseInput_iff`).
-/

namespace RiscvKernel.Shell

open Lib

def maxNameLen : ℕ := 15
def maxArgs : ℕ := 8

/-- `isspace`. -/
def isspace (ch : Byte) : Bool :=
  ch = 32#8 ∨ ch = 9#8 ∨ ch = 10#8 ∨ ch = 11#8 ∨ ch = 12#8 ∨ ch = 13#8

/-! ## The parser -/

/-- The memory with the line, the variables of `parse_input` and what it writes for its caller. The
last three lists record where it stores a byte of the name, an argument and a byte of the line. -/
structure Parse where
  mem : Mem
  p : ℕ
  command : Mem
  cmdLen : ℕ
  argv : ℕ → ℕ
  argc : ℕ
  argcPtr : ℕ
  commandWrites : List ℕ
  argvWrites : List ℕ
  lineWrites : List ℕ

namespace Parse

variable (s : Parse)

/-- `command[cmd_len] = ch`. -/
def putCommand (ch : Byte) : Parse :=
  { s with
    command := Function.update s.command s.cmdLen ch, commandWrites := s.commandWrites ++ [s.cmdLen] }

/-- `argv[argc++] = p`. -/
def putArg : Parse :=
  { s with
    argv := Function.update s.argv s.argc s.p, argvWrites := s.argvWrites ++ [s.argc]
    argc := s.argc + 1 }

/-- `if (*p != '\0') *p++ = '\0'`. -/
def cut : Parse :=
  if s.mem s.p ≠ 0#8 then
    { s with
      mem := Function.update s.mem s.p 0#8, lineWrites := s.lineWrites ++ [s.p], p := s.p + 1 }
  else s

end Parse

/-- `while (*p != '\0' && c(*p)) p++`; like the other loops it gives `none` when it has not ended
after `n` rounds. -/
def skip (c : Byte → Bool) : ℕ → Mem → ℕ → Option ℕ
  | 0, _, _ => none
  | n + 1, m, p => if m p ≠ 0#8 ∧ c (m p) then skip c n m (p + 1) else some p

/-- The loop that copies the name of the command. -/
def copyName : ℕ → Parse → Option Parse
  | 0, _ => none
  | n + 1, s =>
    if s.mem s.p ≠ 0#8 ∧ !isspace (s.mem s.p) then
      let s :=
        if s.cmdLen ≤ maxNameLen then { s.putCommand (s.mem s.p) with cmdLen := s.cmdLen + 1 } else s
      copyName n { s with p := s.p + 1 }
    else some s

/-- The loop over the arguments. -/
def parseArgs : ℕ → Parse → Option Parse
  | 0, _ => none
  | n + 1, s =>
    if s.mem s.p ≠ 0#8 ∧ s.argc < maxArgs then do
      let q ← skip isspace (n + 1) s.mem s.p
      let s := { s with p := q }
      if s.mem s.p = 0#8 then
        return s
      else
        let s := s.putArg
        let q ← skip (fun c => !isspace c) (n + 1) s.mem s.p
        parseArgs n { s with p := q }.cut
    else some s

/-- `parse_input`. -/
def parseInput (n : ℕ) (m : Mem) (buffer : ℕ) (command : Mem) (argv : ℕ → ℕ) (argcPtr : ℕ) :
    Option Parse := do
  let p ← skip isspace n m buffer
  let argcPtr := if m p = 0#8 then 0 else argcPtr
  let s ← copyName n ⟨m, p, command, 0, argv, 0, argcPtr, [], [], []⟩
  let s ← parseArgs n (s.putCommand 0#8).cut
  return { s with argcPtr := s.argc }

/-- The line is parsed as it should be: the name is the first word, cut off after `MAX_NAME_LEN`
bytes, the arguments are the other ones, as many as there is room for, and nothing is written but the
caller's arrays and blanks of the line. -/
structure Tokenized (m : Mem) (buffer : ℕ) (line : CStr) (r : Parse) : Prop where
  command : cstr r.command 0 (maxNameLen + 1) = ((words isspace line).headD []).take maxNameLen
  argc : r.argcPtr = min maxArgs (words isspace line).tail.length
  argv : ∀ i w, i < maxArgs → (words isspace line).tail[i]? = some w → StrAt r.mem (r.argv i) w
  commandWrites : ∀ i ∈ r.commandWrites, i ≤ maxNameLen
  argvWrites : ∀ i ∈ r.argvWrites, i < maxArgs
  lineWrites : ∀ i ∈ r.lineWrites,
    buffer ≤ i ∧ i < buffer + line.length ∧ isspace (m i) = true
  kept : ∀ i ∉ r.lineWrites, r.mem i = m i

/-! ## The loops -/

variable {c : Byte → Bool} {m : Mem} {p n : ℕ} {l : CStr} {s : Parse}

theorem skip_spec (h : StrAt m p l) (hn : l.length < n) :
    skip c n m p = some (p + (l.takeWhile c).length) := by
  induction l generalizing p n with
  | nil =>
    obtain ⟨n, rfl⟩ := Nat.exists_eq_succ_of_ne_zero (by simp at hn; omega : n ≠ 0)
    have h : m p = 0#8 := h
    rw [skip, if_neg fun hc => hc.1 h]
    rfl
  | cons x xs ih =>
    obtain ⟨n, rfl⟩ := Nat.exists_eq_succ_of_ne_zero (by simp at hn; omega : n ≠ 0)
    obtain ⟨h1, h2, h3⟩ := h
    rw [skip, h1]
    cases hx : c x with
    | true =>
      rw [if_pos ⟨h2, rfl⟩, ih h3 (by simpa using hn), List.takeWhile_cons_of_pos hx,
        List.length_cons, show p + 1 + (xs.takeWhile c).length = p + ((xs.takeWhile c).length + 1) by
          omega]
    | false =>
      rw [if_neg (by simp), List.takeWhile_cons_of_neg (by simp [hx])]
      rfl

/-- The rest of the string stands where the loop ends. -/
theorem skip_rest (h : StrAt m p l) : StrAt m (p + (l.takeWhile c).length) (l.dropWhile c) := by
  apply StrAt.drop
  rwa [List.takeWhile_append_dropWhile]

/-- What the copy of the word `w` at `s.p` leaves. -/
structure Copied (s r : Parse) (w : CStr) : Prop where
  mem : r.mem = s.mem
  p : r.p = s.p + w.length
  cmdLen : r.cmdLen = s.cmdLen + min w.length (maxNameLen + 1 - s.cmdLen)
  new : ∀ i < r.cmdLen - s.cmdLen, r.command (s.cmdLen + i) = w.getD i 0#8
  old : ∀ i < s.cmdLen, r.command i = s.command i
  commandWrites : ∀ i ∈ r.commandWrites, i ∈ s.commandWrites ∨ i ≤ maxNameLen
  argv : r.argv = s.argv
  argc : r.argc = s.argc
  argvWrites : r.argvWrites = s.argvWrites
  lineWrites : r.lineWrites = s.lineWrites

theorem copyName_spec (h : StrAt s.mem s.p l) (hn : l.length < n)
    (hl : s.cmdLen ≤ maxNameLen + 1) :
    ∃ r, copyName n s = some r ∧ Copied s r (l.takeWhile fun c => !isspace c) := by
  induction l generalizing s n with
  | nil =>
    obtain ⟨n, rfl⟩ := Nat.exists_eq_succ_of_ne_zero (by simp at hn; omega : n ≠ 0)
    have h : s.mem s.p = 0#8 := h
    refine ⟨s, by rw [copyName, if_neg fun hc => hc.1 h], ?_⟩
    exact ⟨rfl, rfl, by simp, by simp, fun _ _ => rfl, fun _ hi => Or.inl hi, rfl, rfl, rfl, rfl⟩
  | cons x xs ih =>
    obtain ⟨n, rfl⟩ := Nat.exists_eq_succ_of_ne_zero (by simp at hn; omega : n ≠ 0)
    obtain ⟨h1, h2, h3⟩ := h
    rw [copyName, h1]
    cases hx : isspace x with
    | true =>
      rw [List.takeWhile_cons_of_neg (by simp [hx])]
      refine ⟨s, by rw [if_neg (by simp)], ?_⟩
      exact ⟨rfl, rfl, by simp, by simp, fun _ _ => rfl, fun _ hi => Or.inl hi, rfl, rfl, rfl, rfl⟩
    | false =>
      rw [if_pos ⟨h2, by simp⟩, List.takeWhile_cons_of_pos (by simp [hx])]
      simp only
      by_cases hc : s.cmdLen ≤ maxNameLen
      · rw [if_pos hc]
        obtain ⟨r, e, hr⟩ := ih
          (s := { ({ s.putCommand x with cmdLen := s.cmdLen + 1 } : Parse) with p := s.p + 1 }) h3
          (by simpa using hn) (by show s.cmdLen + 1 ≤ _; omega)
        refine ⟨r, e, hr.mem, ?_, ?_, ?_, ?_, ?_, hr.argv, hr.argc, hr.argvWrites, hr.lineWrites⟩
        · rw [hr.p, List.length_cons]
          show s.p + 1 + _ = _
          omega
        · rw [hr.cmdLen, List.length_cons]
          show s.cmdLen + 1 + min _ (maxNameLen + 1 - (s.cmdLen + 1)) = _
          omega
        · intro i hi
          cases i with
          | zero =>
            rw [List.getD_cons_zero, hr.old _ (by show _ < s.cmdLen + 1; omega)]
            exact Function.update_self _ _ _
          | succ i =>
            rw [List.getD_cons_succ, ← hr.new i (by show i < r.cmdLen - (s.cmdLen + 1); omega)]
            show r.command (s.cmdLen + (i + 1)) = r.command (s.cmdLen + 1 + i)
            congr 1
            omega
        · intro i hi
          rw [hr.old i (by show i < s.cmdLen + 1; omega)]
          exact Function.update_of_ne (by omega) _ _
        · intro i hi
          rcases hr.commandWrites i hi with hi | hi
          · have hi : i ∈ s.commandWrites ++ [s.cmdLen] := hi
            rw [List.mem_append, List.mem_singleton] at hi
            rcases hi with hi | rfl
            · exact Or.inl hi
            · exact Or.inr hc
          · exact Or.inr hi
      · rw [if_neg hc]
        obtain ⟨r, e, hr⟩ := ih (s := { s with p := s.p + 1 }) h3 (by simpa using hn) hl
        have hz : maxNameLen + 1 - s.cmdLen = 0 := by omega
        have hcl : r.cmdLen = s.cmdLen := by
          rw [hr.cmdLen]
          show s.cmdLen + min _ (maxNameLen + 1 - s.cmdLen) = _
          omega
        refine ⟨r, e, hr.mem, ?_, ?_, ?_, hr.old, hr.commandWrites, hr.argv, hr.argc, hr.argvWrites,
          hr.lineWrites⟩
        · rw [hr.p, List.length_cons]
          show s.p + 1 + _ = _
          omega
        · rw [hcl, hz, Nat.min_zero, Nat.add_zero]
        · intro i hi
          omega

/-- Blanks between `s.p` and `e` have become terminators. -/
def LineCut (s r : Parse) (e : ℕ) : Prop :=
  ∃ new, r.lineWrites = s.lineWrites ++ new ∧
    (∀ i ∈ new, s.p ≤ i ∧ i < e ∧ isspace (s.mem i) = true) ∧ ∀ i ∉ new, r.mem i = s.mem i

theorem LineCut.refl (s : Parse) (q e : ℕ) : LineCut s { s with p := q } e :=
  ⟨[], (List.append_nil _).symm, nofun, fun _ _ => rfl⟩

theorem LineCut.trans {t r : Parse} {e : ℕ} (h1 : LineCut s t e) (h2 : LineCut t r e)
    (hp : s.p ≤ t.p) : LineCut s r e := by
  obtain ⟨new1, e1, w1, k1⟩ := h1
  obtain ⟨new2, e2, w2, k2⟩ := h2
  refine ⟨new1 ++ new2, by rw [e2, e1, List.append_assoc], fun i hi => ?_, fun i hi => ?_⟩
  · by_cases h : i ∈ new1
    · exact w1 i h
    · obtain ⟨a, b, c⟩ := w2 i ((List.mem_append.mp hi).resolve_left h)
      rw [k1 i h] at c
      exact ⟨by omega, b, c⟩
  · rw [List.mem_append, not_or] at hi
    rw [k2 i hi.2, k1 i hi.1]

theorem LineCut.before {r : Parse} {e i : ℕ} (h : LineCut s r e) (hi : i < s.p) :
    r.mem i = s.mem i := by
  obtain ⟨new, -, w, k⟩ := h
  exact k i fun hn => absurd (w i hn).1 (by omega)

/-- A terminator stays. -/
theorem LineCut.zero {r : Parse} {e i : ℕ} (h : LineCut s r e) (hi : s.mem i = 0#8) :
    r.mem i = 0#8 := by
  obtain ⟨new, -, w, k⟩ := h
  rw [k i, hi]
  intro hn
  have := (w i hn).2.2
  rw [hi] at this
  cases this

/-- A cut in front of the end of the string or of a blank. -/
structure CutAt (s : Parse) (t : CStr) : Prop where
  rest : StrAt s.cut.mem s.cut.p t.tail
  le : s.p ≤ s.cut.p
  p : s.cut.p + t.tail.length = s.p + t.length
  zero : s.cut.mem s.p = 0#8
  line : LineCut s s.cut (s.p + t.length)
  words : Lib.words isspace t.tail = Lib.words isspace t

theorem cut_spec {t : CStr} (h : StrAt s.mem s.p t)
    (ht : t = [] ∨ ∃ x t', t = x :: t' ∧ isspace x = true) : CutAt s t := by
  rcases ht with rfl | ⟨x, t', rfl, hx⟩
  · have h : s.mem s.p = 0#8 := h
    have hc : s.cut = s := by
      unfold Parse.cut
      rw [if_neg (not_not.mpr h)]
    exact ⟨by rw [hc]; exact h, by rw [hc], by rw [hc]; rfl, by rw [hc]; exact h,
      by rw [hc]; exact LineCut.refl s s.p _, rfl⟩
  · obtain ⟨h1, h2, h3⟩ := h
    have hc : s.cut =
        { s with
          mem := Function.update s.mem s.p 0#8, lineWrites := s.lineWrites ++ [s.p]
          p := s.p + 1 } := by
      unfold Parse.cut
      rw [if_pos (by rwa [h1])]
    constructor
    · rw [hc]
      exact h3.congr fun i hi _ => Function.update_of_ne (by omega) _ _
    · rw [hc]
      exact Nat.le_succ _
    · rw [hc, List.length_cons]
      show s.p + 1 + t'.length = _
      omega
    · rw [hc]
      exact Function.update_self _ _ _
    · rw [hc]
      refine ⟨[s.p], rfl, fun i hi => ?_, fun i hi => ?_⟩
      · obtain rfl := List.mem_singleton.mp hi
        exact ⟨le_rfl, by simp, by rw [h1]; exact hx⟩
      · exact Function.update_of_ne (fun e => hi (List.mem_singleton.mpr e)) _ _
    · exact (words_cons_sep hx).symm

@[simp] theorem cut_argv : s.cut.argv = s.argv := by unfold Parse.cut; split_ifs <;> rfl
@[simp] theorem cut_argc : s.cut.argc = s.argc := by unfold Parse.cut; split_ifs <;> rfl
@[simp] theorem cut_argvWrites : s.cut.argvWrites = s.argvWrites := by
  unfold Parse.cut; split_ifs <;> rfl
@[simp] theorem cut_command : s.cut.command = s.command := by unfold Parse.cut; split_ifs <;> rfl
@[simp] theorem cut_commandWrites : s.cut.commandWrites = s.commandWrites := by
  unfold Parse.cut; split_ifs <;> rfl

/-- What the loop over the arguments makes of the string `l` at `s.p`. -/
structure Parsed (s r : Parse) (l : CStr) : Prop where
  argc : r.argc = min maxArgs (s.argc + (words isspace l).length)
  argv : ∀ i w, s.argc + i < maxArgs → (words isspace l)[i]? = some w →
    StrAt r.mem (r.argv (s.argc + i)) w
  old : ∀ i < s.argc, r.argv i = s.argv i
  argvWrites : ∀ i ∈ r.argvWrites, i ∈ s.argvWrites ∨ i < maxArgs
  line : LineCut s r (s.p + l.length)
  command : r.command = s.command
  commandWrites : r.commandWrites = s.commandWrites

/-- Nothing more to be parsed. -/
theorem Parsed.stop (q : ℕ) (hc : s.argc ≤ maxArgs)
    (h : words isspace l = [] ∨ s.argc = maxArgs) : Parsed s { s with p := q } l := by
  refine ⟨?_, ?_, fun _ _ => rfl, fun _ hi => Or.inl hi, LineCut.refl s q _, rfl, rfl⟩
  · rcases h with h | h
    · rw [h]
      show s.argc = min maxArgs (s.argc + 0)
      omega
    · show s.argc = _
      omega
  · intro i w hi hw
    rcases h with h | h
    · rw [h] at hw
      simp at hw
    · omega

/-- The word at `s.p` becomes an argument; the rest is parsed from behind it. -/
theorem Parsed.step {r : Parse} {x : Byte} {xs : CStr} (h : StrAt s.mem s.p (x :: xs))
    (hx : isspace x = false)
    (hs : CutAt { s.putArg with p := s.p + ((x :: xs).takeWhile fun c => !isspace c).length }
      ((x :: xs).dropWhile fun c => !isspace c))
    (hr : Parsed
      ({ s.putArg with p := s.p + ((x :: xs).takeWhile fun c => !isspace c).length } : Parse).cut r
      ((x :: xs).dropWhile fun c => !isspace c).tail)
    (hc : s.argc < maxArgs) : Parsed s r (x :: xs) := by
  have hw := words_cons (l := xs) hx
  have hl : ((x :: xs).takeWhile fun c => !isspace c) ++ ((x :: xs).dropWhile fun c => !isspace c) =
      x :: xs := List.takeWhile_append_dropWhile
  have hlen := congrArg List.length hl
  rw [List.length_append] at hlen
  generalize (x :: xs).takeWhile (fun c => !isspace c) = w at *
  generalize (x :: xs).dropWhile (fun c => !isspace c) = t at *
  generalize hs1 : ({ s.putArg with p := s.p + w.length } : Parse) = s1 at *
  have hp1 : s1.p = s.p + w.length := by rw [← hs1]
  have hm1 : s1.mem = s.mem := by rw [← hs1]; rfl
  have hargc : s1.cut.argc = s.argc + 1 := by rw [cut_argc, ← hs1]; rfl
  have hargv : s1.cut.argv = Function.update s.argv s.argc s.p := by rw [cut_argv, ← hs1]; rfl
  have hline : LineCut s s1.cut (s.p + (x :: xs).length) := by
    obtain ⟨new, e, hn, k⟩ := hs.line
    rw [hm1] at hn k
    rw [hp1] at hn
    refine ⟨new, by rw [e, ← hs1]; rfl, fun i hi => ?_, k⟩
    obtain ⟨a, b, c⟩ := hn i hi
    exact ⟨by omega, by omega, c⟩
  have hrl : LineCut s1.cut r (s.p + (x :: xs).length) := by
    have := hr.line
    rwa [hs.p, hp1, show s.p + w.length + t.length = s.p + (x :: xs).length by omega] at this
  have hle := hs.le
  rw [hp1] at hle
  constructor
  · rw [hr.argc, hargc, hs.words, hw, List.length_cons]
    omega
  · intro i v hi hv
    rw [hw] at hv
    cases i with
    | zero =>
      obtain rfl := Option.some.inj hv
      rw [Nat.add_zero, hr.old _ (by omega), hargv, Function.update_self]
      rw [← hl] at h
      refine h.cut (fun j hj hj' => ?_) ?_
      · rw [hrl.before (by omega), hs.line.before (by omega), hm1]
      · apply hrl.zero
        have := hs.zero
        rwa [hp1] at this
    | succ i =>
      have := hr.argv i v (by omega) (by rw [hs.words]; exact hv)
      rwa [hargc, show s.argc + 1 + i = s.argc + (i + 1) by omega] at this
  · intro i hi
    rw [hr.old i (by omega), hargv, Function.update_of_ne (by omega)]
  · intro i hi
    rcases hr.argvWrites i hi with hi | hi
    · rw [cut_argvWrites, ← hs1] at hi
      have hi : i ∈ s.argvWrites ++ [s.argc] := hi
      rw [List.mem_append, List.mem_singleton] at hi
      rcases hi with hi | rfl
      · exact Or.inl hi
      · exact Or.inr hc
    · exact Or.inr hi
  · exact hline.trans hrl (by omega)
  · rw [hr.command, cut_command, ← hs1]
    rfl
  · rw [hr.commandWrites, cut_commandWrites, ← hs1]
    rfl

/-- Blanks in front of the first word. -/
theorem Parsed.skip {r : Parse} {q : ℕ} {t : CStr} (h : Parsed { s with p := q } r t)
    (hw : words isspace t = words isspace l) (hq : s.p ≤ q)
    (hl : q + t.length = s.p + l.length) : Parsed s r l := by
  refine ⟨?_, fun i w hi hv => ?_, h.old, h.argvWrites, ?_, h.command, h.commandWrites⟩
  · rw [h.argc, hw]
  · exact h.argv i w hi (by rw [hw]; exact hv)
  · rw [← hl]
    exact (LineCut.refl s q _).trans h.line hq

theorem parseArgs_spec (h : StrAt s.mem s.p l) (hn : l.length < n) (hc : s.argc ≤ maxArgs) :
    ∃ r, parseArgs n s = some r ∧ Parsed s r l := by
  induction n generalizing s l with
  | zero => omega
  | succ n ih =>
    rw [parseArgs]
    by_cases h0 : s.mem s.p ≠ 0#8 ∧ s.argc < maxArgs
    · have hb := skip_spec (c := isspace) h hn
      have hq := skip_rest (c := isspace) h
      have hw : words isspace (l.dropWhile isspace) = words isspace l := words_dropWhile
      have hlen : (l.takeWhile isspace).length + (l.dropWhile isspace).length = l.length := by
        rw [← List.length_append, List.takeWhile_append_dropWhile]
      rw [if_pos h0, hb]
      simp only [Option.bind_eq_bind, Option.bind_some]
      generalize hqe : s.p + (l.takeWhile isspace).length = q at hq ⊢
      cases ht : l.dropWhile isspace with
      | nil =>
        rw [ht] at hq hw hlen
        have h1 : s.mem q = 0#8 := hq
        rw [if_pos h1]
        exact ⟨_, rfl, Parsed.stop q hc (Or.inl (by rw [← hw, words_nil]))⟩
      | cons x xs =>
        rw [ht] at hq hw hlen
        have hx := dropWhile_eq_cons ht
        have hne : ¬ s.mem q = 0#8 := by rw [hq.1]; exact hq.2.1
        rw [if_neg hne]
        have he := skip_spec (c := fun c => !isspace c) (n := n + 1) hq (by omega)
        have hcut := cut_spec
          (s := { ({ s with p := q } : Parse).putArg with
            p := q + ((x :: xs).takeWhile fun c => !isspace c).length })
          (skip_rest (c := fun c => !isspace c) hq) (dropWhile_not_cases _ _)
        have hlt : ((x :: xs).dropWhile fun c => !isspace c).length ≤ xs.length := by
          rw [List.dropWhile_cons_of_pos (by simp [hx])]
          exact (List.dropWhile_sublist _).length_le
        obtain ⟨r, e, hr⟩ := ih hcut.rest
          (by rw [List.length_tail]; rw [List.length_cons] at hlen; omega)
          (by rw [cut_argc]; exact h0.2)
        refine ⟨r, ?_, ?_⟩
        · show (skip (fun c => !isspace c) (n + 1) s.mem q).bind _ = _
          rw [he]
          exact e
        · have hp : Parsed { s with p := q } r (x :: xs) := Parsed.step hq hx hcut hr h0.2
          exact hp.skip hw (by omega) (by omega)
    · rw [if_neg h0]
      refine ⟨s, rfl, Parsed.stop s.p hc ?_⟩
      by_cases hz : s.mem s.p = 0#8
      · rw [h.eq_nil hz]
        exact Or.inl rfl
      · right
        by_contra hne
        exact h0 ⟨hz, by omega⟩

/-! ## The line -/

/-- What `parse_input` does with a line, by its words. -/
structure ParseInput (m : Mem) (buffer : ℕ) (line : CStr) (r : Parse) : Prop where
  name : ∀ i ≤ min (maxNameLen + 1) ((words isspace line).headD []).length,
    r.command i = (((words isspace line).headD []).take (maxNameLen + 1)).getD i 0#8
  terminator : min (maxNameLen + 1) ((words isspace line).headD []).length ∈ r.commandWrites
  commandWrites : ∀ i ∈ r.commandWrites,
    i ≤ max maxNameLen (min (maxNameLen + 1) ((words isspace line).headD []).length)
  argc : r.argcPtr = min maxArgs (words isspace line).tail.length
  argv : ∀ i w, i < maxArgs → (words isspace line).tail[i]? = some w → StrAt r.mem (r.argv i) w
  argvWrites : ∀ i ∈ r.argvWrites, i < maxArgs
  lineWrites : ∀ i ∈ r.lineWrites,
    buffer ≤ i ∧ i < buffer + line.length ∧ isspace (m i) = true
  kept : ∀ i ∉ r.lineWrites, r.mem i = m i

theorem words_first (line : CStr) :
    (words isspace line).headD [] =
        (line.dropWhile isspace).takeWhile (fun c => !isspace c) ∧
      (words isspace line).tail =
        words isspace ((line.dropWhile isspace).dropWhile fun c => !isspace c) := by
  rw [← words_dropWhile (l := line)]
  cases h : line.dropWhile isspace with
  | nil => exact ⟨rfl, rfl⟩
  | cons x xs =>
    rw [words_cons (dropWhile_eq_cons h)]
    exact ⟨rfl, rfl⟩

variable {buffer argcPtr : ℕ} {line : CStr} {command : Mem} {argv : ℕ → ℕ}

theorem parseInput_spec (h : StrAt m buffer line) (hn : line.length < n) :
    ∃ r, parseInput n m buffer command argv argcPtr = some r ∧ ParseInput m buffer line r := by
  have hlen : (line.takeWhile isspace).length + (line.dropWhile isspace).length = line.length := by
    rw [← List.length_append, List.takeWhile_append_dropWhile]
  have hq := skip_rest (c := isspace) h
  obtain ⟨hw1, hw2⟩ := words_first line
  have e1 := skip_spec (c := isspace) h hn
  generalize hqe : buffer + (line.takeWhile isspace).length = q at hq e1
  generalize line.dropWhile isspace = t at *
  have hlen2 : (t.takeWhile fun c => !isspace c).length + (t.dropWhile fun c => !isspace c).length =
      t.length := by
    rw [← List.length_append, List.takeWhile_append_dropWhile]
  -- the name
  obtain ⟨r0, e2, h2⟩ := copyName_spec (n := n)
    (s := ⟨m, q, command, 0, argv, 0, if m q = 0#8 then 0 else argcPtr, [], [], []⟩) hq (by omega)
    (Nat.zero_le _)
  have hq2 := skip_rest (c := fun c => !isspace c) hq
  have ht2 := dropWhile_not_cases isspace t
  rw [← hw1] at h2 hq2 hlen2
  generalize hwe : (words isspace line).headD [] = w at *
  generalize (t.dropWhile fun c => !isspace c) = t2 at *
  have hcl : r0.cmdLen = min (maxNameLen + 1) w.length := by
    rw [h2.cmdLen, Nat.zero_add, Nat.sub_zero, Nat.min_comm]
  have hm0 : r0.mem = m := h2.mem
  have hp0 : r0.p = q + w.length := h2.p
  -- the terminator and the rest of the line
  have hcut := cut_spec (s := r0.putCommand 0#8)
    (by show StrAt r0.mem r0.p t2; rwa [hm0, hp0]) ht2
  have hargc : (r0.putCommand 0#8).cut.argc = 0 := by
    rw [cut_argc]
    exact h2.argc
  obtain ⟨r, e3, h3⟩ := parseArgs_spec (n := n) hcut.rest
    (by rw [List.length_tail]; omega) (by rw [hargc]; exact Nat.zero_le _)
  have hline : LineCut (r0.putCommand 0#8) r (q + w.length + t2.length) := by
    have h4 := h3.line
    have hp := hcut.p
    have hp1 : (r0.putCommand 0#8).p = q + w.length := hp0
    have h5 := hcut.line
    rw [hp, hp1] at h4
    rw [hp1] at h5
    exact h5.trans h4 hcut.le
  refine ⟨{ r with argcPtr := r.argc }, ?_, ?_⟩
  · unfold parseInput
    rw [e1]
    simp only [Option.bind_eq_bind, Option.bind_some]
    rw [e2]
    simp only [Option.bind_some]
    rw [e3]
    rfl
  have hcommand : r.command = Function.update r0.command r0.cmdLen 0#8 := by
    rw [h3.command, cut_command]
    rfl
  have hwrites : r.commandWrites = r0.commandWrites ++ [r0.cmdLen] := by
    rw [h3.commandWrites, cut_commandWrites]
    rfl
  constructor
  · rw [hwe]
    intro i hi
    show r.command i = _
    rw [hcommand]
    rcases Nat.lt_or_eq_of_le hi with hi | hi
    · rw [← hcl] at hi
      have := h2.new i (by show i < r0.cmdLen - 0; omega)
      rw [Nat.zero_add] at this
      rw [Function.update_of_ne (by omega), this]
      rw [hcl] at hi
      rw [List.getD_eq_getElem?_getD, List.getD_eq_getElem?_getD, List.getElem?_take_of_lt (by omega)]
    · rw [hi, hcl, Function.update_self, List.getD_eq_getElem?_getD, List.getElem?_eq_none]
      · rfl
      · rw [List.length_take]
  · show _ ∈ r.commandWrites
    rw [hwe, hwrites, ← hcl]
    exact List.mem_append_right _ (List.mem_singleton_self _)
  · rw [hwe]
    intro i hi
    have hi : i ∈ r.commandWrites := hi
    rw [hwrites, List.mem_append, List.mem_singleton] at hi
    rcases hi with hi | hi
    · rcases h2.commandWrites i hi with hi | hi
      · cases hi
      · omega
    · rw [hi, hcl]
      omega
  · show r.argc = _
    rw [h3.argc, hargc, hcut.words, hw2, Nat.zero_add]
  · intro i v hi hv
    have := h3.argv i v (by rw [hargc]; omega) (by rw [hcut.words, ← hw2]; exact hv)
    rwa [hargc, Nat.zero_add] at this
  · intro i hi
    rcases h3.argvWrites i hi with hi | hi
    · rw [cut_argvWrites] at hi
      have hi : i ∈ r0.argvWrites := hi
      rw [h2.argvWrites] at hi
      cases hi
    · exact hi
  · intro i hi
    obtain ⟨new, e, hn', -⟩ := hline
    have hi : i ∈ r.lineWrites := hi
    rw [e] at hi
    have hi : i ∈ r0.lineWrites ++ new := hi
    rw [h2.lineWrites, List.nil_append] at hi
    obtain ⟨a, b, c⟩ := hn' i hi
    have a : r0.p ≤ i := a
    have c : isspace (r0.mem i) = true := c
    rw [hm0] at c
    exact ⟨by omega, by omega, c⟩
  · intro i hi
    obtain ⟨new, e, -, k⟩ := hline
    have hi : i ∉ r.lineWrites := hi
    rw [e] at hi
    have hk := k i fun hn => hi (List.mem_append_right _ hn)
    show r.mem i = m i
    rw [hk]
    exact congrFun hm0 i

theorem ParseInput.tokenized {r : Parse} (h : ParseInput m buffer line r)
    (hw : ((words isspace line).headD []).length ≤ maxNameLen)
    (h0 : 0#8 ∉ (words isspace line).headD []) : Tokenized m buffer line r := by
  have hl : min (maxNameLen + 1) ((words isspace line).headD []).length =
      ((words isspace line).headD []).length := by omega
  refine ⟨?_, h.argc, h.argv, ?_, h.argvWrites, h.lineWrites, h.kept⟩
  · rw [List.take_of_length_le hw]
    refine cstr_eq_of_bytes h0 (by omega) fun i hi => ?_
    rw [Nat.zero_add, h.name i (by rw [hl]; exact hi), List.take_of_length_le (by omega)]
  · intro i hi
    have := h.commandWrites i hi
    omega

/-- For every line the parser comes to an end, and it does what it should exactly when the first word
is not longer than `MAX_NAME_LEN`. -/
theorem parseInput_iff (h : StrAt m buffer line) (hn : line.length < n) :
    ∃ r, parseInput n m buffer command argv argcPtr = some r ∧
      (Tokenized m buffer line r ↔ ((words isspace line).headD []).length ≤ maxNameLen) := by
  obtain ⟨r, e, hr⟩ := parseInput_spec h hn
  refine ⟨r, e, ?_, fun hw => hr.tokenized hw ?_⟩
  · -- the terminator of a longer name comes behind the array
    intro ht
    have := ht.commandWrites _ hr.terminator
    omega
  · rw [(words_first line).1]
    intro hm
    exact h.zero_notMem ((List.dropWhile_sublist _).subset ((List.takeWhile_sublist _).subset hm))

/-- `cat  f` followed by a blank. -/
def catLine : CStr := [99#8, 97#8, 116#8, 32#8, 32#8, 102#8, 32#8]

/-- A line with a name of `k` letters, at address 0. -/
def nameLine (k : ℕ) : Mem := fill (fun _ => 0#8) 0 97#8 k

theorem parseInput_cat :
    ∃ r, parseInput 8 (strcpy (fun _ => 0#8) 0 catLine) 0 (fun _ => 0#8) (fun _ => 0) 0 = some r ∧
      (Tokenized (strcpy (fun _ => 0#8) 0 catLine) 0 catLine r ↔
        ((words isspace catLine).headD []).length ≤ maxNameLen) :=
  parseInput_iff (by decide) (by decide)

/-- A name of 16 letters: the terminator is stored at `command[16]`. -/
theorem parseInput_long :
    StrAt (nameLine 16) 0 (List.replicate 16 97#8) ∧
      ∃ r, parseInput 17 (nameLine 16) 0 (fun _ => 0#8) (fun _ => 0) 0 = some r ∧
        16 ∈ r.commandWrites ∧ ¬ Tokenized (nameLine 16) 0 (List.replicate 16 97#8) r := by
  have h : StrAt (nameLine 16) 0 (List.replicate 16 97#8) := by decide
  have hw : words isspace (List.replicate 16 97#8) = [List.replicate 16 97#8] :=
    words_word (by decide) (by decide)
  have hspec : ∃ r, parseInput 17 (nameLine 16) 0 (fun _ => 0#8) (fun _ => 0) 0 = some r ∧
      ParseInput (nameLine 16) 0 (List.replicate 16 97#8) r := parseInput_spec h (by decide)
  obtain ⟨r, e, hr⟩ := hspec
  have ht := hr.terminator
  rw [hw] at ht
  have ht : 16 ∈ r.commandWrites := ht
  refine ⟨h, r, e, ht, fun hk => ?_⟩
  have := hk.commandWrites 16 ht
  revert this
  decide

end RiscvKernel.Shell
