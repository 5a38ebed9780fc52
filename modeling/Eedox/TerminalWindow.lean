import Eedox.Library.Refinement
import Eedox.TerminalScreen

namespace Eedox.TerminalWindow

open Library.Runs Library.Refinement Terminal TerminalScreen

/-- A sheet of paper without an end below, the place where the next character goes, and the first line that is
on the screen. -/
structure Sheet where
  text : ℕ → ℕ → UInt8
  line : ℕ
  col : ℕ
  top : ℕ

def Sheet.blank : Sheet := ⟨fun _ _ => 0, 0, 0, 0⟩

def Sheet.write (p : Sheet) (line col : ℕ) (c : UInt8) : Sheet :=
  { p with text := Function.update p.text line (Function.update (p.text line) col c) }

def Sheet.feed (p : Sheet) : Sheet := { p with line := p.line + 1, col := 0 }

def Sheet.moved (p : Sheet) (c : UInt8) : Sheet :=
  if c = 10 then p.feed
  else if p.col + 1 = termCols then (p.write p.line p.col c).feed
  else { p.write p.line p.col c with col := p.col + 1 }

/-- The screen follows the line. -/
def Sheet.followed (p : Sheet) : Sheet := if p.line = p.top + termRows then { p with top := p.top + 1 } else p

def Sheet.typed (p : Sheet) (c : UInt8) : Sheet := if c = 0 then p else (p.moved c).followed

/-- The columns of a line up to its last character. -/
def used (row : ℕ → UInt8) : ℕ → ℕ
  | 0 => 0
  | n + 1 => if row n ≠ 0 then n + 1 else used row n

/-- Inside a line the last character goes; at its start the line above goes on, if it is on the screen. -/
def Sheet.erased (p : Sheet) : Sheet :=
  if p.col ≠ 0 then { p.write p.line (p.col - 1) 0 with col := p.col - 1 }
  else if p.line = p.top then p
  else { p with line := p.line - 1, col := used (p.text (p.line - 1)) termCols }

def spec (p : Sheet) : Op → Sheet
  | .writeChar c => p.typed c
  | .printBuffer str => str.foldl Sheet.typed p
  | .backspace => p.erased
  | .clear => .blank
  | .bg | .fg => p

/-- The terminal stays on the screen, and a full line is not gone back to. -/
def Guard (d : Display) (op : Op) : Prop := op ≠ .bg ∧ ¬ Ghost d op

/-- The cells are the lines of the sheet from the first one on the screen, and the screen shows them. -/
structure Holds (d : Display) (p : Sheet) : Prop where
  active : d.term.active = true
  row : d.term.currow = (p.line : ℤ) - p.top
  col : d.term.curcol = p.col
  above : p.top ≤ p.line
  below : p.line < p.top + 25 ∨ p.line = p.top + 25 ∧ p.col = 0
  within : p.col < 80
  cells : ∀ row col : ℕ, row < 25 → col < 80 → d.term.cells row col = p.text (p.top + row) col
  blank : ∀ line col, col < 80 → p.line < line ∨ line = p.line ∧ p.col ≤ col → p.text line col = 0
  screen : Mirrored d

structure Shows (d : Display) (p : Sheet) : Prop extends Holds d p where
  inside : p.line < p.top + 25
  cursor : (d.cursor : ℤ) = d.term.currow * 80 + d.term.curcol

variable {d : Display} {p : Sheet} {c : UInt8} {i row col : ℤ} {n : ℕ}

section Scroll

theorem scrollRow_cells (d : Display) (i : ℤ) (n : ℕ) (row col : ℤ) : (scrollRow d i n).term.cells row col =
    if row = i ∧ 0 ≤ col ∧ col < n then d.term.cells (i + 1) col else d.term.cells row col := by
  induction n generalizing row col with
  | zero =>
    rw [if_neg (by omega)]
    rfl
  | succ j ih =>
    have hput : scrollRow d i (j + 1) = put (access (scrollRow d i j) (i + 1) j) i j
        ((scrollRow d i j).term.cells (i + 1) j) := rfl
    rw [hput, put_cells]
    have hsame : (access (scrollRow d i j) (i + 1) j).term.cells row col = (scrollRow d i j).term.cells row col :=
      rfl
    rw [hsame, ih, ih]
    by_cases h : row = i ∧ col = j
    · obtain ⟨rfl, rfl⟩ := h
      rw [if_pos ⟨rfl, rfl⟩, if_neg (by omega), if_pos (by omega)]
    · rw [if_neg h]
      by_cases hj : row = i ∧ 0 ≤ col ∧ col < j
      · rw [if_pos hj, if_pos (by omega)]
      · rw [if_neg hj, if_neg (by omega)]

theorem scrollRows_cells (d : Display) (n : ℕ) (row col : ℤ) : (scrollRows d n).term.cells row col =
    if (0 ≤ row ∧ row < n) ∧ 0 ≤ col ∧ col < 80 then d.term.cells (row + 1) col else d.term.cells row col := by
  induction n generalizing row col with
  | zero =>
    rw [if_neg (by omega)]
    rfl
  | succ i ih =>
    rw [scrollRows, scrollRow_cells, termCols, ih, ih]
    by_cases h : row = i ∧ 0 ≤ col ∧ col < 80
    · obtain ⟨rfl, hcol⟩ := h
      rw [if_pos ⟨rfl, by omega⟩, if_neg (by omega), if_pos (by omega)]
    · rw [if_neg (by omega)]
      by_cases hj : (0 ≤ row ∧ row < i) ∧ 0 ≤ col ∧ col < 80
      · rw [if_pos hj, if_pos (by omega)]
      · rw [if_neg hj, if_neg (by omega)]

theorem emptyRow_cells (d : Display) (i : ℤ) (n : ℕ) (row col : ℤ) : (emptyRow d i n).term.cells row col =
    if row = i ∧ 0 ≤ col ∧ col < n then 0 else d.term.cells row col := by
  induction n generalizing row col with
  | zero =>
    rw [if_neg (by omega)]
    rfl
  | succ j ih =>
    have hput : emptyRow d i (j + 1) = put (emptyRow d i j) i j 0 := rfl
    rw [hput, put_cells, ih]
    by_cases h : row = i ∧ col = j
    · rw [if_pos h, if_pos (by omega)]
    · rw [if_neg h]
      by_cases hj : row = i ∧ 0 ≤ col ∧ col < j
      · rw [if_pos hj, if_pos (by omega)]
      · rw [if_neg hj, if_neg (by omega)]

theorem emptyRows_cells (d : Display) (n : ℕ) (row col : ℤ) : (emptyRows d n).term.cells row col =
    if (0 ≤ row ∧ row < n) ∧ 0 ≤ col ∧ col < 80 then 0 else d.term.cells row col := by
  induction n generalizing row col with
  | zero =>
    rw [if_neg (by omega)]
    rfl
  | succ i ih =>
    rw [emptyRows, emptyRow_cells, termCols, ih]
    by_cases h : row = i ∧ 0 ≤ col ∧ col < 80
    · rw [if_pos (by omega), if_pos (by omega)]
    · rw [if_neg (by omega)]
      by_cases hj : (0 ≤ row ∧ row < i) ∧ 0 ≤ col ∧ col < 80
      · rw [if_pos hj, if_pos (by omega)]
      · rw [if_neg hj, if_neg (by omega)]

/-- Every row takes what was below it, and the last one is empty. -/
theorem termScrollup_cells (d : Display) (hin : Inside row col) : (termScrollup d).term.cells row col =
    if row = 24 then 0 else d.term.cells (row + 1) col := by
  obtain ⟨hrow, hcol⟩ := hin
  rw [termScrollup, termRows, termCols, emptyRow_cells, scrollRows_cells]
  by_cases h : row = 24
  · rw [if_pos (by omega), if_pos h]
  · rw [if_neg (by omega), if_neg h, if_pos (by omega)]

end Scroll

section Typing

theorem Holds.placed (h : Holds d p) (hin : p.line < p.top + 25) : Placed d := by
  have habove := h.above
  have hwithin := h.within
  refine ⟨⟨?_, ?_⟩, ?_, ?_⟩
  · rw [h.row]
    omega
  · rw [h.row]
    omega
  · rw [h.col]
    omega
  · rw [h.col]
    omega

theorem write_text (p : Sheet) (line col : ℕ) (c : UInt8) (l k : ℕ) :
    (p.write line col c).text l k = if l = line ∧ k = col then c else p.text l k := by
  unfold Sheet.write
  simp only [Function.update_apply]
  split_ifs <;> simp_all

/-- A character is put where the cursor is. -/
theorem Holds.put_cells (h : Holds d p) (col : ℕ) (c : UInt8) :
    ∀ r k : ℕ, r < 25 → k < 80 → (put d d.term.currow col c).term.cells r k =
      (p.write p.line col c).text (p.top + r) k := by
  intro r k hr hk
  have habove := h.above
  rw [Terminal.put_cells, write_text, h.row, h.cells r k hr hk]
  by_cases he : r + p.top = p.line ∧ k = col
  · rw [if_pos (by omega), if_pos (by omega)]
  · rw [if_neg (by omega), if_neg (by omega)]

theorem Holds.advanced (h : Holds d p) (hin : p.line < p.top + 25) (c : UInt8) :
    Holds (advance d c) (p.moved c) := by
  have hscreen := (advance_updates (h.placed hin) c).1.mirrored h.active h.screen
  have hactive : (advance d c).term.active = true := (advance_updates (h.placed hin) c).1.active.trans h.active
  have hrow := h.row
  have hcol := h.col
  have habove := h.above
  have hwithin := h.within
  unfold advance Sheet.moved at *
  by_cases hc : c = 10
  · rw [if_pos hc] at hscreen hactive ⊢
    rw [if_pos hc]
    refine ⟨hactive, ?_, rfl, Nat.le_succ_of_le habove, ?_, Nat.succ_pos 79, h.cells, fun l k hk hl => ?_, hscreen⟩
    · simp only [moveTo, Sheet.feed]
      omega
    · simp only [Sheet.feed, and_true]
      omega
    · apply h.blank l k hk
      simp only [Sheet.feed] at hl
      omega
  · rw [if_neg hc] at hscreen hactive ⊢
    rw [if_neg hc]
    rw [setCell_termPutchar] at hscreen hactive ⊢
    have hterm : (put d d.term.currow d.term.curcol c).term.currow = d.term.currow ∧
        (put d d.term.currow d.term.curcol c).term.curcol = d.term.curcol := by
      rw [put_term]
      exact ⟨rfl, rfl⟩
    have hcells := h.put_cells p.col c
    rw [← hcol] at hcells
    have hblank (l k : ℕ) (hk : k < 80) (hl : p.line < l ∨ l = p.line ∧ p.col + 1 ≤ k) :
        (p.write p.line p.col c).text l k = 0 := by
      rw [write_text, if_neg (by omega)]
      exact h.blank l k hk (by omega)
    dsimp only at hscreen hactive ⊢
    rw [hterm.1, hterm.2, termCols] at hscreen hactive ⊢
    by_cases hlast : p.col + 1 = 80
    · have hlast' : d.term.curcol + 1 = (80 : ℕ) := by omega
      rw [if_pos hlast'] at hscreen hactive ⊢
      rw [if_pos hlast]
      refine ⟨hactive, ?_, rfl, Nat.le_succ_of_le habove, ?_, Nat.succ_pos 79, hcells, fun l k hk hl => ?_, hscreen⟩
      · simp only [moveTo, Sheet.feed, Sheet.write]
        omega
      · simp only [Sheet.feed, Sheet.write, and_true]
        omega
      · apply hblank l k hk
        simp only [Sheet.feed, Sheet.write] at hl
        omega
    · have hlast' : ¬ d.term.curcol + 1 = (80 : ℕ) := by omega
      rw [if_neg hlast'] at hscreen hactive ⊢
      rw [if_neg hlast]
      refine ⟨hactive, hrow, ?_, habove, Or.inl hin, ?_, hcells, hblank, hscreen⟩
      · simp only [moveTo]
        omega
      · simp only
        omega

/-- The lines have gone up by one. -/
theorem Holds.lifted {e : Display} (h : Holds d p) (hlast : p.line = p.top + 25) (hcol : p.col = 0)
    (hwrites : Writes d e) (hcells : ∀ r k : ℕ, r < 25 → k < 80 →
      e.term.cells r k = if r = 24 then 0 else d.term.cells (r + 1) k) :
    Holds (moveTo e (d.term.currow - 1) d.term.curcol) { p with top := p.top + 1 } := by
  have hrow := h.row
  have hupdates : Updates d (moveTo e (d.term.currow - 1) d.term.curcol) := .move (.writes .refl hwrites) _ _
  refine ⟨hupdates.active.trans h.active, ?_, h.col, ?_, ?_, h.within, fun r k hr hk => ?_, h.blank,
    hupdates.mirrored h.active h.screen⟩
  · simp only [moveTo]
    omega
  · simp only
    omega
  · simp only
    omega
  · refine (hcells r k hr hk).trans ?_
    by_cases hr24 : r = 24
    · rw [if_pos hr24, h.blank _ k hk]
      simp only
      omega
    · have hnext := h.cells (r + 1) k (by omega) hk
      rw [Nat.cast_succ] at hnext
      rw [if_neg hr24, hnext, Nat.add_right_comm, Nat.add_assoc]

theorem Holds.scrolled (h : Holds d p) (hlast : p.line = p.top + 25) (hcol : p.col = 0) :
    Holds (moveTo (termScrollup d) (d.term.currow - 1) d.term.curcol) { p with top := p.top + 1 } := by
  apply h.lifted hlast hcol (termScrollup_writes d)
  intro r k hr hk
  have hcast : (r : ℤ) = 24 ↔ r = 24 := by omega
  rw [termScrollup_cells d ⟨⟨by omega, by omega⟩, by omega, by omega⟩]
  simp only [hcast]

theorem Holds.wrapped (h : Holds d p) : Holds (wrap d) p.followed ∧ p.followed.line < p.followed.top + 25 := by
  have hrow := h.row
  have habove := h.above
  have hbelow := h.below
  unfold wrap Sheet.followed
  rw [termRows]
  by_cases hlast : p.line = p.top + 25
  · have hlast' : d.term.currow = (25 : ℕ) := by omega
    obtain ⟨-, hsamerow, hsamecol⟩ := (termScrollup_writes d).place
    rw [if_pos hlast', if_pos h.active, if_pos hlast]
    dsimp only
    rw [hsamerow, hsamecol]
    exact ⟨h.scrolled hlast (by omega), by omega⟩
  · have hlast' : ¬ d.term.currow = (25 : ℕ) := by omega
    rw [if_neg hlast', if_neg hlast]
    exact ⟨h, by omega⟩

theorem Holds.setCursor (h : Holds d p) (hin : p.line < p.top + 25) :
    Shows (termSetCursor d d.term.currow d.term.curcol) p := by
  have hterm : (termSetCursor d d.term.currow d.term.curcol).term = d.term := (termSetCursor_same d _ _).1
  have hframe := (termSetCursor_same d d.term.currow d.term.curcol).2.1
  obtain ⟨⟨hrow, hrow'⟩, hcol, hcol'⟩ := h.placed hin
  refine ⟨⟨?_, ?_, ?_, h.above, h.below, h.within, ?_, h.blank, fun r k hrk => ?_⟩, hin, ?_⟩
  · rw [hterm, h.active]
  · rw [hterm, h.row]
  · rw [hterm, h.col]
  · rw [hterm]
    exact h.cells
  · rw [shown, hframe, hterm]
    exact h.screen r k hrk
  · rw [hterm]
    unfold termSetCursor
    rw [if_pos h.active]
    simp only [termRawSetCursor]
    omega

theorem Shows.typed (h : Shows d p) (c : UInt8) : Shows (termWriteChar d c) (p.typed c) := by
  unfold termWriteChar Sheet.typed
  by_cases hc : c = 0
  · rw [if_pos hc, if_pos hc]
    exact h
  · rw [if_neg hc, if_neg hc]
    obtain ⟨hwrapped, hin⟩ := (h.toHolds.advanced h.inside c).wrapped
    dsimp only
    rw [if_pos hwrapped.active]
    exact hwrapped.setCursor hin

theorem Shows.printed (h : Shows d p) (str : List UInt8) :
    Shows (termPrintBuffer d str) (str.foldl Sheet.typed p) := by
  induction str generalizing d p with
  | nil => exact h
  | cons c str ih => exact ih (h.typed c)

end Typing

section Backspace

theorem used_eq {row : ℕ → UInt8} {n : ℕ} {stop : ℤ} (hlow : -1 ≤ stop) (hn : stop < n)
    (hfilled : ∀ k : ℕ, (k : ℤ) = stop → row k ≠ 0) (hblank : ∀ k : ℕ, stop < k → k < n → row k = 0) :
    (used row n : ℤ) = stop + 1 := by
  induction n with
  | zero =>
    rw [used]
    omega
  | succ n ih =>
    rw [used]
    by_cases hs : stop = n
    · rw [if_pos (hfilled n hs.symm)]
      omega
    · rw [if_neg (not_not.mpr (hblank n (by omega) (by omega)))]
      exact ih (by omega) fun k hk hkn => hblank k hk (by omega)

theorem Holds.erasedInside (h : Holds d p) (hin : p.line < p.top + 25) (hcol : p.col ≠ 0) :
    Holds (eraseBack d) { p.write p.line (p.col - 1) 0 with col := p.col - 1 } := by
  have hc := h.col
  have hwithin := h.within
  have hupdates := (eraseBack_updates (h.placed hin) (by omega)).1
  have hput : eraseBack d = put (moveTo d d.term.currow (d.term.curcol - 1)) d.term.currow (d.term.curcol - 1) 0 := rfl
  have hscreen := hupdates.mirrored h.active h.screen
  have hactive := hupdates.active.trans h.active
  rw [hput] at hscreen hactive ⊢
  have hpos : d.term.curcol - 1 = ((p.col - 1 : ℕ) : ℤ) := by omega
  have hcells := h.put_cells (p.col - 1) 0
  rw [hpos] at hscreen hactive ⊢
  refine ⟨hactive, ?_, ?_, h.above, h.below.imp_right fun hb => absurd hb.2 hcol, ?_, fun r k hr hk => ?_,
    fun l k hk hl => ?_, hscreen⟩
  · rw [put_term]
    exact h.row
  · rw [put_term]
    rfl
  · simp only
    omega
  · refine Eq.trans ?_ (hcells r k hr hk)
    rw [Terminal.put_cells, Terminal.put_cells]
    rfl
  · refine (write_text p p.line (p.col - 1) 0 l k).trans ?_
    split_ifs
    · rfl
    · apply h.blank l k hk
      simp only [Sheet.write] at hl
      omega

/-- Back over the end of a line that is not full. -/
theorem Holds.erasedAbove (h : Holds d p) (hin : p.line < p.top + 25) (hcol : p.col = 0) (hline : p.line ≠ p.top)
    (hfull : d.term.cells (d.term.currow - 1) 79 = 0) :
    Holds (wrapBack d) { p with line := p.line - 1, col := used (p.text (p.line - 1)) termCols } := by
  have hrow := h.row
  have habove := h.above
  obtain ⟨stop, hs⟩ := @scanBack_scanned (moveTo d (d.term.currow - 1) 79) (termCols + 1)
    (by simp only [moveTo]; omega) (by simp only [moveTo, termCols]; omega)
  have hwrap : wrapBack d = if (scanBack (termCols + 1) (moveTo d (d.term.currow - 1) 79)).term.curcol ≠ 79
      then moveTo (scanBack (termCols + 1) (moveTo d (d.term.currow - 1) 79)) (scanBack (termCols + 1)
        (moveTo d (d.term.currow - 1) 79)).term.currow ((scanBack (termCols + 1)
        (moveTo d (d.term.currow - 1) 79)).term.curcol + 1)
      else termPutchar (scanBack (termCols + 1) (moveTo d (d.term.currow - 1) 79)) (scanBack (termCols + 1)
        (moveTo d (d.term.currow - 1) 79)).term.currow (scanBack (termCols + 1)
        (moveTo d (d.term.currow - 1) 79)).term.curcol 0 := rfl
  generalize scanBack (termCols + 1) (moveTo d (d.term.currow - 1) 79) = f at hs hwrap
  have hlow := hs.low
  have hhigh : stop ≤ 79 := hs.high
  have hfilled : 0 ≤ stop → d.term.cells (d.term.currow - 1) stop ≠ 0 := hs.filled
  have hblank : ∀ col, stop < col → col ≤ 79 → d.term.cells (d.term.currow - 1) col = 0 := hs.blank
  have hne : stop ≠ 79 := by
    rintro rfl
    exact hfilled (by decide) hfull
  have hline' : ((p.line - 1 : ℕ) : ℤ) = p.top + (d.term.currow - 1) := by omega
  obtain ⟨r, hr⟩ : ∃ r : ℕ, (r : ℤ) = d.term.currow - 1 := ⟨p.line - 1 - p.top, by omega⟩
  have hread (k : ℕ) (hk : k < 80) : p.text (p.line - 1) k = d.term.cells (d.term.currow - 1) k := by
    rw [← hr, h.cells r k (by omega) hk]
    congr 1
    omega
  have hused : (used (p.text (p.line - 1)) termCols : ℤ) = stop + 1 := by
    apply used_eq hlow (by rw [termCols]; omega)
    · rintro k rfl
      rw [hread k (by omega)]
      exact hfilled (by omega)
    · intro k hk hk80
      rw [termCols] at hk80
      rw [hread k hk80]
      exact hblank k hk (by omega)
  have hf : f.term = { d.term with currow := d.term.currow - 1, curcol := stop } := hs.term
  have hframe : f.frameBuffer = d.frameBuffer := hs.frameBuffer
  rw [hwrap, hf, if_pos hne]
  refine ⟨?_, ?_, ?_, ?_, ?_, ?_, ?_, fun l k hk hl => ?_, fun i j hij => ?_⟩
  · simp only [moveTo, hf]
    exact h.active
  · simp only [moveTo]
    omega
  · simp only [moveTo]
    exact hused.symm
  · simp only
    omega
  · simp only
    omega
  · simp only
    omega
  · simp only [moveTo, hf]
    exact h.cells
  · simp only at hl
    by_cases hl' : p.line ≤ l
    · apply h.blank l k hk
      omega
    · obtain rfl : l = p.line - 1 := by omega
      simp only
      rw [hread k hk]
      exact hblank k (by omega) (by omega)
  · simp only [moveTo, hf, shown, hframe]
    exact h.screen i j hij

/-- A screen that shows the sheet and the terminal of which the screen is one after a backspace. -/
theorem Shows.erased (h : Shows d p) (hghost : ¬ Ghost d .backspace) : Shows (termBackspace d) p.erased := by
  have hrow := h.row
  have hc := h.col
  have habove := h.above
  unfold termBackspace Sheet.erased
  by_cases hcol : p.col = 0
  · rw [if_neg (not_not.mpr hcol)]
    by_cases hline : p.line = p.top
    · rw [if_pos ⟨by omega, by omega⟩, if_pos hline]
      exact h
    · have hfull : d.term.cells (d.term.currow - 1) 79 = 0 := by
        by_contra hne
        exact hghost ⟨h.active, by omega, by omega, hne⟩
      rw [if_neg (by omega), if_neg hline]
      dsimp only
      rw [if_pos (by omega)]
      apply (h.toHolds.erasedAbove h.inside hcol hline hfull).setCursor
      have hin := h.inside
      simp only
      omega
  · rw [if_neg (by omega), if_pos hcol]
    dsimp only
    rw [if_neg (by omega)]
    exact (h.toHolds.erasedInside h.inside hcol).setCursor h.inside

end Backspace

section Run

theorem Holds.emptied {e : Display} (h : Holds d p) (hwrites : Writes d e)
    (hcells : ∀ r k : ℕ, r < 25 → k < 80 → e.term.cells r k = 0) : Holds (moveTo e 0 0) .blank := by
  have hupdates : Updates d (moveTo e 0 0) := .move (.writes .refl hwrites) _ _
  exact ⟨hupdates.active.trans h.active, rfl, rfl, le_rfl, Or.inl (by decide), by decide, hcells,
    fun _ _ _ _ => rfl, hupdates.mirrored h.active h.screen⟩

theorem Shows.cleared (h : Shows d p) : Shows (termClear d) .blank := by
  have hcells (r k : ℕ) (hr : r < 25) (hk : k < 80) : (emptyRows d termRows).term.cells r k = 0 := by
    rw [emptyRows_cells, if_pos]
    rw [termRows]
    omega
  exact (h.toHolds.emptied (emptyRows_writes d (n := termRows) le_rfl) hcells).setCursor (by decide)

theorem drawRow_cursor (d : Display) (i : ℤ) (n : ℕ) : (drawRow d i n).cursor = d.cursor := by
  induction n with
  | zero => rfl
  | succ j ih => exact ih

theorem drawRows_cursor (d : Display) (n : ℕ) : (drawRows d n).cursor = d.cursor := by
  induction n with
  | zero => rfl
  | succ i ih => exact (drawRow_cursor _ _ _).trans ih

/-- The terminal as it comes to the foreground. -/
theorem termFg_same (d : Display) : (termFg d).term = { d.term with active := true } ∧
    (termFg d).cursor = ((d.term.currow * 80 + d.term.curcol) % 2 ^ 16).toNat := by
  unfold termFg
  refine ⟨(drawRows_drawn _ (le_refl 25)).term, ?_⟩
  exact drawRows_cursor _ _

theorem Shows.redrawn (h : Shows d p) : Shows (termFg d) p := by
  obtain ⟨hterm, hcursor⟩ := termFg_same d
  have hplaced := h.toHolds.placed h.inside
  have hsame : (termFg d).term = d.term := by
    rw [hterm, ← h.active]
  refine ⟨⟨?_, ?_, ?_, h.above, h.below, h.within, ?_, h.blank, (termFg_drawn hplaced).1⟩, h.inside, ?_⟩
  · rw [hsame, h.active]
  · rw [hsame, h.row]
  · rw [hsame, h.col]
  · rw [hsame]
    exact h.cells
  · obtain ⟨⟨hrow, hrow'⟩, hcol, hcol'⟩ := hplaced
    rw [hcursor, hsame]
    omega

theorem shows_start (frameBuffer : ℤ → UInt8) (cursor : ℕ) : Shows (termFg (termInit frameBuffer cursor)) .blank := by
  obtain ⟨hterm, hcursor⟩ := termFg_same (termInit frameBuffer cursor)
  have hscreen := (termFg_drawn (placed_termInit frameBuffer cursor)).1
  refine ⟨⟨?_, ?_, ?_, le_rfl, Or.inl (by decide), by decide, ?_, fun _ _ _ _ => rfl, hscreen⟩, by decide, ?_⟩
  · rw [hterm]
  · rw [hterm]
    rfl
  · rw [hterm]
    rfl
  · intro r k _ _
    rw [hterm]
    rfl
  · rw [hcursor, hterm]
    rfl

theorem Shows.withAccesses (h : Shows d p) (accesses : List (ℤ × ℤ)) : Shows { d with accesses := accesses } p :=
  ⟨⟨h.active, h.row, h.col, h.above, h.below, h.within, h.cells, h.blank, h.screen⟩, h.inside, h.cursor⟩

theorem follows_op {op : Op} (h : Shows d p) (hg : Guard d op) : Follows step spec Shows d p op := by
  have hd := h.withAccesses []
  refine ⟨_, rfl, ?_⟩
  cases op with
  | writeChar c => exact hd.typed c
  | printBuffer str => exact hd.printed str
  | backspace => exact hd.erased hg.2
  | clear => exact hd.cleared
  | bg => exact absurd rfl hg.1
  | fg => exact hd.redrawn

theorem guard_backspace (h : Shows d p) (hfull : p.col = 0 → p.text (p.line - 1) 79 = 0) : Guard d .backspace := by
  refine ⟨by simp, ?_⟩
  rintro ⟨-, hcol, hrow, hne⟩
  have habove := h.above
  have hin := h.inside
  have hr := h.row
  have hc := h.col
  have hcells := h.cells (p.line - 1 - p.top) 79 (by omega) (by decide)
  have hpos : ((p.line - 1 - p.top : ℕ) : ℤ) = d.term.currow - 1 := by omega
  have hline : p.top + (p.line - 1 - p.top) = p.line - 1 := by omega
  rw [hpos, hline, hfull (by omega)] at hcells
  exact hne hcells

/-- A terminal that has been brought to the screen shows the last lines of an endless sheet, whatever is typed,
erased and cleared. -/
theorem screen_window (frameBuffer : ℤ → UInt8) (cursor : ℕ) (ops : List Op)
    (hg : Meets step Guard (termFg (termInit frameBuffer cursor)) ops) :
    Refines step spec Shows (termFg (termInit frameBuffer cursor)) .blank ops :=
  refines_of_meets (fun _ _ _ => follows_op) (shows_start frameBuffer cursor) hg

/-- A line end is taken back, and the line goes on. -/
theorem screen_window_sample : Refines step spec Shows (termFg (termInit (fun _ => 32) 7)) .blank
      [.printBuffer [65, 10], .backspace, .writeChar 66] ∧
    ((spec (spec (spec .blank (.printBuffer [65, 10])) .backspace) (.writeChar 66)).text 0 1 = 66) := by
  refine ⟨screen_window (fun _ => 32) 7 _ ?_, by decide⟩
  have hprint (e : Display) : Guard e (.printBuffer [65, 10]) := ⟨by simp, id⟩
  apply meets_follows (follows_op (shows_start _ _) (hprint _)) (hprint _)
  intro e _ he
  have hback : Guard e .backspace := guard_backspace he (by decide)
  apply meets_follows (follows_op he hback) hback
  exact fun f _ _ => ⟨⟨by simp, id⟩, fun _ _ => trivial⟩

end Run

end Eedox.TerminalWindow
