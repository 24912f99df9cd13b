import RiscvKernel.Lib.Run
import RiscvKernel.Sched.Kernel

/-!
# The screen

`screen_write` puts characters into the buffer `new_screen` at the cursor of the running process and
moves that cursor; `screen_reflush` sends the characters that differ from `old_screen` to the
terminal. The cursor is on the screen as long as no newline and no wrap comes on the last line and no
backspace in the first column (`screenWriteCh_onScreen_iff`, `screen_onScreen`): unlike
`screen_move_cursor`, the writer does not bring a cursor that has left the screen back.
-/

namespace RiscvKernel.Drivers

open Lib Run Sched

def screenWidth : ℤ := 80
def screenHeight : ℤ := 50

/-- `SCREEN_LOC`. -/
def screenLoc (x y : ℤ) : ℤ := y * screenWidth + x

/-! ## The state -/

/-- `cursor_x` and `cursor_y` of a PCB. -/
structure Cursor where
  x : ℤ
  y : ℤ
deriving DecidableEq

/-- What is sent to the terminal. -/
inductive Vt
  | moveCursor (x y : ℤ)
  | clear
  | hiddenCursor
  | putchar (ch : Byte)
deriving DecidableEq

/-- The two buffers, the cursors, the running process and the terminal. A buffer is read and written
at any index: outside the array these are the bytes around it. `written` records the indices at
which `new_screen` is written. -/
structure Screen where
  newScreen : ℤ → Byte
  oldScreen : ℤ → Byte
  cursors : Task → Cursor
  currentRunning : Task
  terminal : List Vt
  written : List ℤ

namespace Screen

variable (s : Screen)

/-- The cursor of the running process. -/
def cursor : Cursor := s.cursors s.currentRunning

def setCursor (c : Cursor) : Screen :=
  { s with cursors := Function.update s.cursors s.currentRunning c }

def emit (v : Vt) : Screen := { s with terminal := s.terminal ++ [v] }

/-- Store a character in `new_screen`. -/
def put (i : ℤ) (ch : Byte) : Screen :=
  { s with newScreen := Function.update s.newScreen i ch, written := s.written ++ [i] }

@[simp] theorem cursor_setCursor (c : Cursor) : (s.setCursor c).cursor = c :=
  Function.update_self _ _ _

@[simp] theorem setCursor_setCursor (c c' : Cursor) :
    (s.setCursor c).setCursor c' = s.setCursor c' := by
  unfold setCursor
  rw [Function.update_idem]

@[simp] theorem written_setCursor (c : Cursor) : (s.setCursor c).written = s.written := rfl

@[simp] theorem cursor_put (i : ℤ) (ch : Byte) : (s.put i ch).cursor = s.cursor := rfl

@[simp] theorem written_put (i : ℤ) (ch : Byte) : (s.put i ch).written = s.written ++ [i] := rfl

end Screen

/-! ## The functions -/

/-- `cursor_x = 0`, and `cursor_y++` below the height of the screen. -/
def nextLine (c : Cursor) : Cursor := ⟨0, if c.y < screenHeight then i32 (c.y + 1) else c.y⟩

/-- The last branch of `screen_write_ch`: the character is stored and the cursor moves behind it. -/
def writePlain (s : Screen) (ch : Byte) : Screen :=
  let c := s.cursor
  let s := s.put (screenLoc c.x c.y) ch
  let c := { c with x := i32 (c.x + 1) }
  s.setCursor (if screenWidth ≤ c.x then nextLine c else c)

/-- `current_running->cursor_x--`. -/
def stepLeft (s : Screen) : Screen := s.setCursor { s.cursor with x := i32 (s.cursor.x - 1) }

/-- `screen_write_ch`. The call for a blank inside of the backspace branch comes to the last
branch. -/
def screenWriteCh (s : Screen) (ch : Byte) : Screen :=
  if ch = 10#8 then s.setCursor (nextLine s.cursor)
  else if ch = 8#8 ∨ ch = 127#8 then stepLeft (writePlain (stepLeft s) 32#8)
  else writePlain s ch

/-- `screen_write`. -/
def screenWrite (buff : CStr) (s : Screen) : Screen := run screenWriteCh s buff

/-- `screen_move_cursor`. -/
def screenMoveCursor (x y : ℤ) (s : Screen) : Screen :=
  let x := if screenWidth ≤ x then screenWidth - 1 else if x < 0 then 0 else x
  let y := if screenHeight ≤ y then screenHeight - 1 else if y < 0 then 0 else y
  (s.setCursor ⟨x, y⟩).emit (.moveCursor (x + 1) (y + 1))

/-- The positions `(j, i)` in the order of the two loops. -/
def cells : List (ℤ × ℤ) :=
  (List.range screenHeight.toNat).flatMap fun i : ℕ =>
    (List.range screenWidth.toNat).map fun j : ℕ => ((j : ℤ), (i : ℤ))

/-- The body of the loops of `screen_reflush`. -/
def reflushCell (s : Screen) (p : ℤ × ℤ) : Screen :=
  let i := screenLoc p.1 p.2
  if s.newScreen i ≠ s.oldScreen i then
    let s := (s.emit (.moveCursor (p.1 + 1) (p.2 + 1))).emit (.putchar (s.newScreen i))
    { s with oldScreen := Function.update s.oldScreen i (s.newScreen i) }
  else s

/-- `screen_reflush`. -/
def screenReflush (s : Screen) : Screen :=
  let s := run reflushCell s cells
  s.emit (.moveCursor (s.cursor.x + 1) (s.cursor.y + 1))

/-- The body of the loops of `screen_clear`. -/
def clearCell (s : Screen) (p : ℤ × ℤ) : Screen :=
  let i := screenLoc p.1 p.2
  let s := s.put i 32#8
  { s with oldScreen := Function.update s.oldScreen i 32#8 }

/-- `screen_clear`. -/
def screenClear (s : Screen) : Screen :=
  let s := run clearCell (s.emit .clear) cells
  screenReflush (s.setCursor ⟨0, 0⟩)

/-- `init_screen`. -/
def initScreen (s : Screen) : Screen := screenClear ((s.emit .hiddenCursor).emit .clear)

/-! ## Runs -/

/-- A call, or a switch to another process. -/
inductive ScreenCall
  | write (buff : CStr)
  | moveCursor (x y : ℤ)
  | clear
  | reflush
  | switchTo (t : Task)

def Screen.step (s : Screen) : ScreenCall → Screen
  | .write buff => screenWrite buff s
  | .moveCursor x y => screenMoveCursor x y s
  | .clear => screenClear s
  | .reflush => screenReflush s
  | .switchTo t => { s with currentRunning := t }

/-- The cursor is on the screen. -/
structure OnScreen (c : Cursor) : Prop where
  x0 : 0 ≤ c.x
  x1 : c.x < screenWidth
  y0 : 0 ≤ c.y
  y1 : c.y < screenHeight

instance (c : Cursor) : Decidable (OnScreen c) :=
  decidable_of_iff (0 ≤ c.x ∧ c.x < screenWidth ∧ 0 ≤ c.y ∧ c.y < screenHeight)
    ⟨fun h => ⟨h.1, h.2.1, h.2.2.1, h.2.2.2⟩, fun h => ⟨h.x0, h.x1, h.y0, h.y1⟩⟩

/-- An index of `new_screen`. -/
def InBuffer (i : ℤ) : Prop := 0 ≤ i ∧ i < screenWidth * screenHeight

instance (i : ℤ) : Decidable (InBuffer i) := inferInstanceAs (Decidable (_ ∧ _))

/-- All cursors are on the screen and `new_screen` has been written at its own indices only. -/
structure ScreenOk (s : Screen) : Prop where
  cursors : ∀ t, OnScreen (s.cursors t)
  written : ∀ i ∈ s.written, InBuffer i

/-- The character does not take the cursor from the screen: a newline is not on the last line, a
backspace or delete not in the first column, and another character not in the last column of the last
line. -/
def ChFits (s : Screen) (ch : Byte) : Prop :=
  if ch = 10#8 then s.cursor.y < screenHeight - 1
  else if ch = 8#8 ∨ ch = 127#8 then 0 < s.cursor.x
  else s.cursor.x < screenWidth - 1 ∨ s.cursor.y < screenHeight - 1

instance (s : Screen) (ch : Byte) : Decidable (ChFits s ch) := by
  unfold ChFits
  infer_instance

/-- Every character of a `screen_write` fits when its turn comes. -/
def CallFits (s : Screen) : ScreenCall → Prop
  | .write buff => Valid screenWriteCh ChFits s buff
  | _ => True

instance (s : Screen) (c : ScreenCall) : Decidable (CallFits s c) := by
  cases c <;> unfold CallFits <;> infer_instance

/-! ## One character -/

variable {s : Screen} {ch : Byte}

theorem nextLine_eq {c : Cursor} (y0 : 0 ≤ c.y) (y1 : c.y < screenHeight) :
    nextLine c = ⟨0, c.y + 1⟩ := by
  unfold nextLine
  rw [if_pos y1]
  unfold screenHeight at y1
  rw [i32_eq (by omega) (by omega)]

/-- A character stored at a position of a line, or in front of its first one. -/
theorem writePlain_cursor (x0 : -1 ≤ s.cursor.x) (x1 : s.cursor.x < screenWidth)
    (y0 : 0 ≤ s.cursor.y) (y1 : s.cursor.y < screenHeight) :
    (writePlain s ch).cursor = if s.cursor.x = screenWidth - 1 then ⟨0, s.cursor.y + 1⟩
      else ⟨s.cursor.x + 1, s.cursor.y⟩ := by
  have hx : i32 (s.cursor.x + 1) = s.cursor.x + 1 := by
    unfold screenWidth at x1
    rw [i32_eq (by omega) (by omega)]
  unfold writePlain
  simp only [Screen.cursor_setCursor, hx]
  by_cases h : s.cursor.x = screenWidth - 1
  · rw [if_pos h, if_pos (by omega), nextLine_eq (c := ⟨s.cursor.x + 1, s.cursor.y⟩) y0 y1]
  · rw [if_neg h, if_neg (by omega)]

theorem writePlain_written :
    (writePlain s ch).written = s.written ++ [screenLoc s.cursor.x s.cursor.y] := rfl

theorem stepLeft_cursor (h : OnScreen s.cursor) :
    (stepLeft s).cursor = ⟨s.cursor.x - 1, s.cursor.y⟩ := by
  have := h.x0
  have hx := h.x1
  unfold screenWidth at hx
  unfold stepLeft
  rw [Screen.cursor_setCursor, i32_eq (by omega) (by omega)]

/-- Where a character takes the cursor. -/
theorem screenWriteCh_cursor (ch : Byte) (h : OnScreen s.cursor) :
    (screenWriteCh s ch).cursor =
      if ch = 10#8 then ⟨0, s.cursor.y + 1⟩
      else if ch = 8#8 ∨ ch = 127#8 then ⟨s.cursor.x - 1, s.cursor.y⟩
      else if s.cursor.x = screenWidth - 1 then ⟨0, s.cursor.y + 1⟩
      else ⟨s.cursor.x + 1, s.cursor.y⟩ := by
  obtain ⟨x0, x1, y0, y1⟩ := h
  unfold screenWriteCh
  split_ifs with h1 h2 h3
  · rw [Screen.cursor_setCursor, nextLine_eq y0 y1]
  · have hl := stepLeft_cursor ⟨x0, x1, y0, y1⟩
    -- the blank is stored left of the cursor, so it never ends the line
    have hp : (writePlain (stepLeft s) 32#8).cursor = s.cursor := by
      rw [writePlain_cursor (by rw [hl]; show -1 ≤ s.cursor.x - 1; omega)
        (by rw [hl]; show s.cursor.x - 1 < _; omega) (by rw [hl]; exact y0) (by rw [hl]; exact y1), hl,
        if_neg (by show ¬s.cursor.x - 1 = _; omega)]
      show Cursor.mk (s.cursor.x - 1 + 1) s.cursor.y = _
      rw [sub_add_cancel]
    rw [stepLeft_cursor (by rw [hp]; exact ⟨x0, x1, y0, y1⟩), hp]
  · rw [writePlain_cursor (by omega) x1 y0 y1, if_pos h3]
  · rw [writePlain_cursor (by omega) x1 y0 y1, if_neg h3]

/-- Where a character is stored. -/
theorem screenWriteCh_written (ch : Byte) (h : OnScreen s.cursor) :
    (screenWriteCh s ch).written = s.written ++
      if ch = 10#8 then []
      else if ch = 8#8 ∨ ch = 127#8 then [screenLoc (s.cursor.x - 1) s.cursor.y]
      else [screenLoc s.cursor.x s.cursor.y] := by
  unfold screenWriteCh
  split_ifs with h1 h2
  · rw [List.append_nil]
    rfl
  · show (stepLeft s).written ++ [screenLoc (stepLeft s).cursor.x (stepLeft s).cursor.y] = _
    rw [stepLeft_cursor h]
    rfl
  · exact writePlain_written

/-- The other processes keep their cursors. -/
theorem screenWriteCh_cursors {t : Task} (ht : t ≠ s.currentRunning) :
    (screenWriteCh s ch).cursors t = s.cursors t := by
  unfold screenWriteCh stepLeft writePlain Screen.setCursor Screen.put
  split_ifs <;> simp only [Function.update_of_ne ht]

theorem screenWriteCh_currentRunning : (screenWriteCh s ch).currentRunning = s.currentRunning := by
  unfold screenWriteCh
  split_ifs <;> rfl

theorem ScreenOk.of_parts {s' : Screen} (h : ScreenOk s)
    (hr : s'.currentRunning = s.currentRunning)
    (ho : ∀ t, t ≠ s.currentRunning → s'.cursors t = s.cursors t) (hc : OnScreen s'.cursor)
    (hw : ∀ i ∈ s'.written, InBuffer i) : ScreenOk s' := by
  constructor
  · intro t
    by_cases ht : t = s.currentRunning
    · rw [ht, ← hr]
      exact hc
    · rw [ho t ht]
      exact h.cursors t
  · exact hw

/-- A character keeps the cursor on the screen, and is stored inside of the buffer, exactly when it
fits. -/
theorem screenWriteCh_ok_iff (h : ScreenOk s) : ScreenOk (screenWriteCh s ch) ↔ ChFits s ch := by
  have hs : OnScreen s.cursor := h.cursors _
  have hc := screenWriteCh_cursor ch hs
  have hw := screenWriteCh_written ch hs
  obtain ⟨x0, x1, y0, y1⟩ := hs
  constructor
  · intro h'
    have hs' : OnScreen (screenWriteCh s ch).cursor := h'.cursors _
    rw [hc] at hs'
    unfold ChFits
    split_ifs at hs' ⊢ with h1 h2 h3
    · have := hs'.y1
      simp only at this
      omega
    · have := hs'.x0
      simp only at this
      omega
    · have := hs'.y1
      simp only at this
      omega
    · omega
  · intro hf
    unfold ChFits at hf
    refine h.of_parts screenWriteCh_currentRunning (fun t ht => screenWriteCh_cursors ht) ?_ ?_
    · rw [hc]
      split_ifs at hf ⊢ with h1 h2 h3
      · exact ⟨le_rfl, by show (0 : ℤ) < 80; omega, by simp only; omega, by simp only; omega⟩
      · exact ⟨by simp only; omega, by simp only; omega, y0, y1⟩
      · exact ⟨le_rfl, by show (0 : ℤ) < 80; omega, by simp only; omega, by simp only; omega⟩
      · exact ⟨by simp only; omega, by simp only; omega, y0, y1⟩
    · rw [hw]
      intro i hi
      rw [List.mem_append] at hi
      rcases hi with hi | hi
      · exact h.written i hi
      · unfold screenWidth at x1
        unfold screenHeight at y1
        split_ifs at hf hi with h1 h2
        · simp at hi
        · rw [List.mem_singleton] at hi
          subst hi
          unfold InBuffer screenLoc screenWidth screenHeight
          omega
        · rw [List.mem_singleton] at hi
          subst hi
          unfold InBuffer screenLoc screenWidth screenHeight
          omega

/-- A `screen_write` fits exactly when the cursor is on the screen after each of its characters. -/
theorem screenWrite_fits_iff {buff : CStr} (h : ScreenOk s) :
    CallFits s (.write buff) ↔ ∀ k, ScreenOk (screenWrite (buff.take k) s) :=
  valid_iff_inv_take (fun _ _ _ hs => screenWriteCh_ok_iff hs) h

/-! ## The other calls -/

theorem ScreenOk.setCursor {c : Cursor} (h : ScreenOk s) (hc : OnScreen c) :
    ScreenOk (s.setCursor c) := by
  refine h.of_parts rfl (fun t ht => ?_) ?_ h.written
  · exact Function.update_of_ne ht _ _
  · rw [Screen.cursor_setCursor]
    exact hc

theorem ScreenOk.emit {v : Vt} (h : ScreenOk s) : ScreenOk (s.emit v) := ⟨h.cursors, h.written⟩

theorem screenMoveCursor_ok {x y : ℤ} (h : ScreenOk s) : ScreenOk (screenMoveCursor x y s) := by
  apply ScreenOk.emit
  apply h.setCursor
  unfold screenWidth screenHeight
  constructor
  · simp only
    split_ifs <;> omega
  · simp only
    unfold screenWidth
    split_ifs <;> omega
  · simp only
    split_ifs <;> omega
  · simp only
    unfold screenHeight
    split_ifs <;> omega

theorem mem_cells {p : ℤ × ℤ} : p ∈ cells ↔ OnScreen ⟨p.1, p.2⟩ := by
  obtain ⟨x, y⟩ := p
  have hw : screenWidth.toNat = 80 := rfl
  have hh : screenHeight.toNat = 50 := rfl
  unfold cells
  simp only [List.mem_flatMap, List.mem_map, List.mem_range, Prod.mk.injEq, hw, hh]
  constructor
  · rintro ⟨i, hi, j, hj, rfl, rfl⟩
    refine ⟨Int.natCast_nonneg _, ?_, Int.natCast_nonneg _, ?_⟩
    · show (j : ℤ) < 80
      omega
    · show (i : ℤ) < 50
      omega
  · rintro ⟨x0, x1, y0, y1⟩
    simp only [screenWidth, screenHeight] at x0 x1 y0 y1
    exact ⟨y.toNat, by omega, x.toNat, by omega, by omega, by omega⟩

theorem OnScreen.inBuffer {x y : ℤ} (h : OnScreen ⟨x, y⟩) : InBuffer (screenLoc x y) := by
  obtain ⟨x0, x1, y0, y1⟩ := h
  simp only [screenWidth, screenHeight] at x0 x1 y0 y1
  unfold InBuffer screenLoc screenWidth screenHeight
  omega

theorem reflushCell_ok {p : ℤ × ℤ} (h : ScreenOk s) : ScreenOk (reflushCell s p) := by
  unfold reflushCell
  simp only
  split_ifs
  · exact ⟨h.cursors, h.written⟩
  · exact h

theorem screenReflush_ok (h : ScreenOk s) : ScreenOk (screenReflush s) := by
  apply ScreenOk.emit (s := run reflushCell s cells)
  exact run_inv (fun s p _ hs => reflushCell_ok hs) h

theorem clearCell_ok {p : ℤ × ℤ} (h : ScreenOk s) (hp : p ∈ cells) : ScreenOk (clearCell s p) := by
  refine ⟨h.cursors, fun i hi => ?_⟩
  have hi : i ∈ s.written ++ [screenLoc p.1 p.2] := hi
  rw [List.mem_append, List.mem_singleton] at hi
  rcases hi with hi | rfl
  · exact h.written i hi
  · exact (mem_cells.mp hp).inBuffer

theorem screenClear_ok (h : ScreenOk s) : ScreenOk (screenClear s) := by
  apply screenReflush_ok
  apply ScreenOk.setCursor
  · exact run_inv (fun s p hp hs => clearCell_ok hs hp) h.emit
  · exact ⟨le_rfl, by decide, le_rfl, by decide⟩

/-! ## Runs -/

theorem screenStep_ok {c : ScreenCall} (h : ScreenOk s) (hc : CallFits s c) :
    ScreenOk (s.step c) := by
  cases c with
  | write buff => exact hc.inv (fun _ _ hs => (screenWriteCh_ok_iff hs).mpr) h
  | moveCursor x y => exact screenMoveCursor_ok h
  | clear => exact screenClear_ok h
  | reflush => exact screenReflush_ok h
  | switchTo t => exact ⟨h.cursors, h.written⟩

/-- In a run whose characters all fit, every cursor is on the screen after each call, and
`new_screen` is written at its own indices only. -/
theorem screen_onScreen {cs : List ScreenCall} (h : ScreenOk s)
    (hc : Valid Screen.step CallFits s cs) (k : ℕ) : ScreenOk (run Screen.step s (cs.take k)) :=
  hc.inv_take (fun _ _ hs => screenStep_ok hs) h k

/-- The screen as the kernel finds it. -/
def blankScreen : Screen where
  newScreen _ := 0#8
  oldScreen _ := 0#8
  cursors _ := ⟨0, 0⟩
  currentRunning := .idle 0
  terminal := []
  written := []

theorem blankScreen_ok : ScreenOk blankScreen := by
  constructor
  · intro t
    show OnScreen ⟨0, 0⟩
    decide
  · intro i hi
    cases hi

/-- A write at the right edge with a wrap, a newline and a backspace, after a move beyond the
edge. -/
theorem screen_onScreen_edge :
    Valid Screen.step CallFits blankScreen
        [.moveCursor 100 7, .write [97#8, 98#8, 8#8, 10#8], .switchTo (.idle 1), .write [99#8]] ∧
      ScreenOk (run Screen.step blankScreen
        ([.moveCursor 100 7, .write [97#8, 98#8, 8#8, 10#8], .switchTo (.idle 1),
          .write [99#8]].take 4)) := by
  have h : Valid Screen.step CallFits blankScreen
      [.moveCursor 100 7, .write [97#8, 98#8, 8#8, 10#8], .switchTo (.idle 1), .write [99#8]] := by
    decide
  exact ⟨h, screen_onScreen blankScreen_ok h 4⟩

/-- A backspace in the first column stores a blank in front of the buffer and leaves the cursor in
front of the screen; a newline on the last line leaves it below. -/
theorem screen_left :
    ScreenOk blankScreen ∧
      (-1 ∈ (run Screen.step blankScreen [.write [8#8]]).written ∧
        (run Screen.step blankScreen [.write [8#8]]).cursor = ⟨-1, 0⟩) ∧
      (run Screen.step blankScreen [.moveCursor 0 49, .write [10#8, 97#8]]).cursor = ⟨1, 50⟩ ∧
      4000 ∈ (run Screen.step blankScreen [.moveCursor 0 49, .write [10#8, 97#8]]).written ∧
      ¬ ScreenOk (run Screen.step blankScreen [.write [8#8]]) := by
  refine ⟨blankScreen_ok, by decide, by decide, by decide, fun h => ?_⟩
  have := (h.cursors (.idle 0)).x0
  revert this
  decide

end RiscvKernel.Drivers
