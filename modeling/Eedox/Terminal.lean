import Mathlib.Algebra.Order.Ring.Int
import Mathlib.Logic.Function.Basic

namespace Eedox.Terminal

def termRows : ℕ := 25

def termCols : ℕ := 80

structure TerminalT where
  active : Bool
  currow : ℤ
  curcol : ℤ
  cells : ℤ → ℤ → UInt8

/-- A terminal with the frame buffer and the cursor of the screen. `accesses` records the rows and columns
at which the cells have been read and written. -/
structure Display where
  term : TerminalT
  frameBuffer : ℤ → UInt8
  cursor : ℕ
  accesses : List (ℤ × ℤ)

/-- White on black. -/
def whiteOnBlack : UInt8 := 0 * 16 + 15

def termRawPutchar (d : Display) (row col : ℤ) (c : UInt8) : Display :=
  let index := row * 80 + col
  { d with frameBuffer := Function.update (Function.update d.frameBuffer (index * 2) c) (index * 2 + 1) whiteOnBlack }

def termRawSetCursor (d : Display) (row col : ℤ) : Display :=
  { d with cursor := ((row * 80 + col) % 2 ^ 16).toNat }

def termPutchar (d : Display) (row col : ℤ) (c : UInt8) : Display :=
  if d.term.active then termRawPutchar d row col c else d

def termSetCursor (d : Display) (row col : ℤ) : Display :=
  if d.term.active then termRawSetCursor d row col else d

def access (d : Display) (row col : ℤ) : Display := { d with accesses := (row, col) :: d.accesses }

def setCell (d : Display) (row col : ℤ) (c : UInt8) : Display :=
  access { d with term := { d.term with
    cells := Function.update d.term.cells row (Function.update (d.term.cells row) col c) } } row col

def moveTo (d : Display) (row col : ℤ) : Display :=
  { d with term := { d.term with currow := row, curcol := col } }

/-- The first `n` columns of a row take the characters of the row below. -/
def scrollRow (d : Display) (i : ℤ) : (n : ℕ) → Display
  | 0 => d
  | j + 1 =>
    let d := access (scrollRow d i j) (i + 1) j
    let c := d.term.cells (i + 1) j
    termPutchar (setCell d i j c) i j c

def scrollRows (d : Display) : (n : ℕ) → Display
  | 0 => d
  | i + 1 => scrollRow (scrollRows d i) i termCols

/-- The first `n` columns of the row are emptied, in the cells and on the screen. -/
def emptyRow (d : Display) (i : ℤ) : (n : ℕ) → Display
  | 0 => d
  | j + 1 => termPutchar (setCell (emptyRow d i j) i j 0) i j 0

def termScrollup (d : Display) : Display := emptyRow (scrollRows d (termRows - 1)) (termRows - 1) termCols

/-- The first half of `term_write_char`: the character and the step to the next cell. -/
def advance (d : Display) (c : UInt8) : Display :=
  if c = 10 then moveTo d (d.term.currow + 1) 0
  else
    let d := setCell (termPutchar d d.term.currow d.term.curcol c) d.term.currow d.term.curcol c
    if d.term.curcol + 1 = termCols then moveTo d (d.term.currow + 1) 0
    else moveTo d d.term.currow (d.term.curcol + 1)

/-- The second half: below the last row the others go up, if they are on the screen. -/
def wrap (d : Display) : Display :=
  if d.term.currow = termRows then
    let d := if d.term.active then termScrollup d else d
    moveTo d (d.term.currow - 1) d.term.curcol
  else d

def termWriteChar (d : Display) (c : UInt8) : Display :=
  if c = 0 then d
  else
    let d := wrap (advance d c)
    if d.term.active then termSetCursor d d.term.currow d.term.curcol else d

/-- A row lies right behind the one above it, and the first one behind `curcol`. -/
def termCurc (term : TerminalT) : UInt8 :=
  if 0 ≤ term.curcol then term.cells term.currow term.curcol
  else if 0 < term.currow then term.cells (term.currow - 1) (termCols + term.curcol)
  else UInt8.ofNat ((term.curcol % 2 ^ 32).toNat / 2 ^ 24)

/-- The cell is read before the column is tested. The loop has at most one turn for each column. -/
def scanBack : (fuel : ℕ) → Display → Display
  | 0, d => d
  | fuel + 1, d =>
    let d' := access d d.term.currow d.term.curcol
    if termCurc d.term = 0 ∧ d.term.curcol ≥ 0 then scanBack fuel (moveTo d' d.term.currow (d.term.curcol - 1))
    else d'

/-- `term_backspace` at the start of a line: the cursor goes behind the last character of the line above. -/
def wrapBack (d : Display) : Display :=
  let d := scanBack (termCols + 1) (moveTo d (d.term.currow - 1) (termCols - 1))
  if d.term.curcol ≠ termCols - 1 then moveTo d d.term.currow (d.term.curcol + 1)
  else termPutchar d d.term.currow d.term.curcol 0

/-- `term_backspace` inside a line. -/
def eraseBack (d : Display) : Display :=
  let d := moveTo d d.term.currow (d.term.curcol - 1)
  termPutchar (setCell d d.term.currow d.term.curcol 0) d.term.currow d.term.curcol 0

def termBackspace (d : Display) : Display :=
  if d.term.curcol = 0 ∧ d.term.currow = 0 then d
  else
    let d := if d.term.curcol = 0 then wrapBack d else eraseBack d
    termSetCursor d d.term.currow d.term.curcol

/-- The terminal after `term_init`, with whatever the screen holds. -/
def termInit (frameBuffer : ℤ → UInt8) (cursor : ℕ) : Display :=
  ⟨⟨false, 0, 0, fun _ _ => 0⟩, frameBuffer, cursor, []⟩

def drawRow (d : Display) (i : ℤ) : (n : ℕ) → Display
  | 0 => d
  | j + 1 =>
    let d := access (drawRow d i j) i j
    termRawPutchar d i j (d.term.cells i j)

def drawRows (d : Display) : (n : ℕ) → Display
  | 0 => d
  | i + 1 => drawRow (drawRows d i) i termCols

def termFg (d : Display) : Display :=
  let d := { d with term := { d.term with active := true } }
  drawRows (termRawSetCursor d d.term.currow d.term.curcol) termRows

def termBg (d : Display) : Display := { d with term := { d.term with active := false } }

def emptyRows (d : Display) : (n : ℕ) → Display
  | 0 => d
  | i + 1 => emptyRow (emptyRows d i) i termCols

def termClear (d : Display) : Display := termSetCursor (moveTo (emptyRows d termRows) 0 0) 0 0

def termPrintBuffer (d : Display) (str : List UInt8) : Display := str.foldl termWriteChar d

inductive Op
  | writeChar (c : UInt8)
  | printBuffer (str : List UInt8)
  | backspace
  | clear
  | bg
  | fg

def Op.run (d : Display) : Op → Display
  | .writeChar c => termWriteChar d c
  | .printBuffer str => termPrintBuffer d str
  | .backspace => termBackspace d
  | .clear => termClear d
  | .bg => termBg d
  | .fg => termFg d

/-- One operation, with the record of its own accesses. -/
def step (d : Display) (op : Op) : Option Display := some (op.run { d with accesses := [] })

/-- The character that the screen shows at a row and a column. -/
def shown (d : Display) (row col : ℤ) : UInt8 := d.frameBuffer ((row * 80 + col) * 2)

def Inside (row col : ℤ) : Prop := (0 ≤ row ∧ row < 25) ∧ 0 ≤ col ∧ col < 80

variable {d d' : Display} {row col i j : ℤ} {c : UInt8} {n : ℕ} {At : ℤ → ℤ → Prop}

theorem shown_termRawPutchar (hin : Inside row col) (hij : Inside i j) :
    shown (termRawPutchar d i j c) row col = if row = i ∧ col = j then c else shown d row col := by
  obtain ⟨hrow, hcol⟩ := hin
  obtain ⟨hi, hj⟩ := hij
  rw [shown, termRawPutchar]
  dsimp only
  rw [Function.update_of_ne (by omega), Function.update_apply]
  by_cases h : row = i ∧ col = j
  · rw [if_pos h, if_pos (by rw [h.1, h.2])]
  · rw [if_neg h, if_neg (by omega)]
    rfl

/-- The cells and the screen get one character: the pair of statements that most operations consist of. -/
def put (d : Display) (row col : ℤ) (c : UInt8) : Display := termPutchar (setCell d row col c) row col c

theorem setCell_termPutchar : setCell (termPutchar d row col c) row col c = put d row col c := by
  unfold put termPutchar
  by_cases h : d.term.active = true
  · rw [if_pos h, if_pos (show (setCell d row col c).term.active = true from h)]
    rfl
  · rw [if_neg h, if_neg (show ¬ (setCell d row col c).term.active = true from h)]

theorem put_term (d : Display) (row col : ℤ) (c : UInt8) : (put d row col c).term = { d.term with
    cells := Function.update d.term.cells row (Function.update (d.term.cells row) col c) } := by
  unfold put termPutchar
  split_ifs <;> rfl

theorem put_accesses (d : Display) (row col : ℤ) (c : UInt8) :
    (put d row col c).accesses = (row, col) :: d.accesses := by
  unfold put termPutchar
  split_ifs <;> rfl

theorem put_cells (d : Display) (i j : ℤ) (c : UInt8) (row col : ℤ) :
    (put d i j c).term.cells row col = if row = i ∧ col = j then c else d.term.cells row col := by
  rw [put_term]
  simp only [Function.update_apply]
  split_ifs <;> simp_all

theorem shown_put (hactive : d.term.active = true) (hin : Inside row col) (hij : Inside i j) :
    shown (put d i j c) row col = if row = i ∧ col = j then c else shown d row col := by
  rw [put, termPutchar, if_pos (show (setCell d i j c).term.active = true from hactive),
    shown_termRawPutchar hin hij]
  rfl

/-- What a run of reads and of such pairs leads to, all inside the cells. -/
inductive Writes (d : Display) : Display → Prop
  | refl : Writes d d
  | put {e : Display} (h : Writes d e) {row col : ℤ} (hin : Inside row col) (c : UInt8) : Writes d (put e row col c)
  | read {e : Display} (h : Writes d e) {row col : ℤ} (hin : Inside row col) : Writes d (access e row col)

theorem Writes.trans {e : Display} (h : Writes d e) (h' : Writes e d') : Writes d d' := by
  induction h' with
  | refl => exact h
  | put _ hin c ih => exact ih.put hin c
  | read _ hin ih => exact ih.read hin

theorem Writes.place (h : Writes d d') : d'.term.active = d.term.active ∧ d'.term.currow = d.term.currow ∧
    d'.term.curcol = d.term.curcol := by
  induction h with
  | refl => exact ⟨rfl, rfl, rfl⟩
  | put _ hin c ih =>
    rw [put_term]
    exact ih
  | read _ hin ih => exact ih

theorem Writes.accesses (h : Writes d d') (hd : ∀ a ∈ d.accesses, Inside a.1 a.2) :
    ∀ a ∈ d'.accesses, Inside a.1 a.2 := by
  induction h with
  | refl => exact hd
  | put _ hin c ih =>
    rw [put_accesses]
    exact List.forall_mem_cons.mpr ⟨hin, ih⟩
  | read _ hin ih => exact List.forall_mem_cons.mpr ⟨hin, ih⟩

theorem scrollRow_writes (d : Display) {i : ℤ} (hi : 0 ≤ i ∧ i + 1 < 25) {n : ℕ} (hn : n ≤ 80) :
    Writes d (scrollRow d i n) := by
  induction n with
  | zero => exact .refl
  | succ j ih => exact ((ih (by omega)).read ⟨by omega, by omega⟩).put ⟨by omega, by omega⟩ _

theorem scrollRows_writes (d : Display) {n : ℕ} (hn : n ≤ 24) : Writes d (scrollRows d n) := by
  induction n with
  | zero => exact .refl
  | succ i ih => exact (ih (by omega)).trans (scrollRow_writes _ (by omega) le_rfl)

theorem emptyRow_writes (d : Display) {i : ℤ} (hi : 0 ≤ i ∧ i < 25) {n : ℕ} (hn : n ≤ 80) :
    Writes d (emptyRow d i n) := by
  induction n with
  | zero => exact .refl
  | succ j ih => exact (ih (by omega)).put ⟨by omega, by omega⟩ _

theorem emptyRows_writes (d : Display) {n : ℕ} (hn : n ≤ 25) : Writes d (emptyRows d n) := by
  induction n with
  | zero => exact .refl
  | succ i ih => exact (ih (by omega)).trans (emptyRow_writes _ (by omega) le_rfl)

theorem termScrollup_writes (d : Display) : Writes d (termScrollup d) :=
  (scrollRows_writes d le_rfl).trans (emptyRow_writes _ (by decide) le_rfl)

end Eedox.Terminal
