import Eedox.Terminal
import Eedox.Library.Runs

namespace Eedox.TerminalScreen

open Library.Runs Terminal

/-- The screen shows the cells. -/
def Mirrored (d : Display) : Prop :=
  ∀ row col, Inside row col → shown d row col = d.term.cells row col

/-- The cursor is at a cell. -/
def Placed (d : Display) : Prop := Inside d.term.currow d.term.curcol

/-- Writes with moves of the cursor between them. -/
inductive Updates (d : Display) : Display → Prop
  | refl : Updates d d
  | writes {e f : Display} (h : Updates d e) (hw : Writes e f) : Updates d f
  | move {e : Display} (h : Updates d e) (row col : ℤ) : Updates d (moveTo e row col)
  | setCursor {e : Display} (h : Updates d e) (row col : ℤ) : Updates d (termSetCursor e row col)

/-- At the start of a line that is not the first one, above which the line is full. -/
def Ghost (d : Display) : Op → Prop
  | .backspace => d.term.active = true ∧ d.term.curcol = 0 ∧ 0 < d.term.currow ∧
      d.term.cells (d.term.currow - 1) 79 ≠ 0
  | _ => False

/-- At the start of a line that is not the first one, above which the line is empty. -/
def BlankAbove (d : Display) : Op → Prop
  | .backspace => d.term.curcol = 0 ∧ 0 < d.term.currow ∧
      ∀ col, 0 ≤ col → col < 80 → d.term.cells (d.term.currow - 1) col = 0
  | _ => False

variable {d d' e : Display} {c : UInt8} {row col : ℤ} {op : Op}

theorem termSetCursor_same (d : Display) (row col : ℤ) : (termSetCursor d row col).term = d.term ∧
    (termSetCursor d row col).frameBuffer = d.frameBuffer ∧ (termSetCursor d row col).accesses = d.accesses := by
  unfold termSetCursor termRawSetCursor
  split_ifs
  · exact ⟨rfl, rfl, rfl⟩
  · exact ⟨rfl, rfl, rfl⟩

theorem mirrored_writes (h : Writes d d') (hactive : d.term.active = true) (hd : Mirrored d) : Mirrored d' := by
  induction h with
  | refl => exact hd
  | put hw hin c ih =>
    intro row col hrc
    rw [shown_put (hw.place.1.trans hactive) hrc hin, put_cells]
    split_ifs
    · rfl
    · exact ih row col hrc
  | read hw hin ih => exact ih

theorem Updates.trans (h : Updates d e) (h' : Updates e d') : Updates d d' := by
  induction h' with
  | refl => exact h
  | writes _ hw ih => exact .writes ih hw
  | move _ row col ih => exact .move ih row col
  | setCursor _ row col ih => exact .setCursor ih row col

theorem Updates.active (h : Updates d d') : d'.term.active = d.term.active := by
  induction h with
  | refl => rfl
  | writes _ hw ih => rw [hw.place.1, ih]
  | move _ row col ih => exact ih
  | setCursor _ row col ih => rw [(termSetCursor_same _ row col).1, ih]

theorem Updates.accesses (h : Updates d d') (hd : ∀ a ∈ d.accesses, Inside a.1 a.2) :
    ∀ a ∈ d'.accesses, Inside a.1 a.2 := by
  induction h with
  | refl => exact hd
  | writes _ hw ih => exact hw.accesses ih
  | move _ row col ih => exact ih
  | setCursor _ row col ih =>
    rw [(termSetCursor_same _ row col).2.2]
    exact ih

theorem Updates.mirrored (h : Updates d d') (hactive : d.term.active = true) (hd : Mirrored d) : Mirrored d' := by
  induction h with
  | refl => exact hd
  | writes hu hw ih => exact mirrored_writes hw (hu.active.trans hactive) ih
  | move _ row col ih => exact ih
  | setCursor _ row col ih =>
    obtain ⟨hterm, hframe, -⟩ := termSetCursor_same ‹Display› row col
    intro r s hin
    rw [shown, hterm, hframe]
    exact ih r s hin

theorem advance_updates (hd : Placed d) (c : UInt8) : Updates d (advance d c) ∧
    (0 ≤ (advance d c).term.currow ∧ (advance d c).term.currow ≤ 25) ∧
    0 ≤ (advance d c).term.curcol ∧ (advance d c).term.curcol < 80 := by
  have hin := hd
  obtain ⟨⟨hrow, hrow'⟩, hcol, hcol'⟩ := hd
  unfold advance
  by_cases hc : c = 10
  · rw [if_pos hc]
    refine ⟨.move .refl _ _, ?_⟩
    simp only [moveTo]
    omega
  · rw [if_neg hc, setCell_termPutchar]
    have hwrites : Writes d (put d d.term.currow d.term.curcol c) := .put .refl hin c
    obtain ⟨-, hsamerow, hsamecol⟩ := hwrites.place
    dsimp only
    rw [hsamerow, hsamecol, termCols]
    by_cases hlast : d.term.curcol + 1 = (80 : ℕ)
    · rw [if_pos hlast]
      refine ⟨.move (.writes .refl hwrites) _ _, ?_⟩
      simp only [moveTo]
      omega
    · rw [if_neg hlast]
      refine ⟨.move (.writes .refl hwrites) _ _, ?_⟩
      simp only [moveTo]
      omega

theorem wrap_updates (hrow : 0 ≤ d.term.currow ∧ d.term.currow ≤ 25) (hcol : 0 ≤ d.term.curcol ∧ d.term.curcol < 80) :
    Updates d (wrap d) ∧ Placed (wrap d) := by
  unfold wrap
  by_cases hlast : d.term.currow = termRows
  · rw [if_pos hlast]
    have hupdates : Updates d (if d.term.active then termScrollup d else d) ∧
        (if d.term.active then termScrollup d else d).term.currow = d.term.currow ∧
        (if d.term.active then termScrollup d else d).term.curcol = d.term.curcol := by
      split_ifs
      · exact ⟨.writes .refl (termScrollup_writes d), (termScrollup_writes d).place.2⟩
      · exact ⟨.refl, rfl, rfl⟩
    refine ⟨.move hupdates.1 _ _, ?_⟩
    unfold termRows at hlast
    simp only [Placed, moveTo, Inside, hupdates.2.1, hupdates.2.2]
    omega
  · rw [if_neg hlast]
    unfold termRows at hlast
    exact ⟨.refl, ⟨by omega, hcol⟩⟩

theorem termWriteChar_updates (hd : Placed d) (c : UInt8) :
    Updates d (termWriteChar d c) ∧ Placed (termWriteChar d c) := by
  unfold termWriteChar
  by_cases hc : c = 0
  · rw [if_pos hc]
    exact ⟨.refl, hd⟩
  rw [if_neg hc]
  obtain ⟨hadvance, hrow, hcol⟩ := advance_updates hd c
  obtain ⟨hwrap, hplaced⟩ := wrap_updates hrow hcol
  have hupdates := hadvance.trans hwrap
  dsimp only
  split_ifs
  · refine ⟨.setCursor hupdates _ _, ?_⟩
    unfold Placed
    rw [(termSetCursor_same _ _ _).1]
    exact hplaced
  · exact ⟨hupdates, hplaced⟩

/-- The leftward scan stops at the last character of the row, or left of an empty one. -/
structure Scanned (d d' : Display) (stop : ℤ) : Prop where
  low : -1 ≤ stop
  high : stop ≤ d.term.curcol
  term : d'.term = { d.term with curcol := stop }
  frameBuffer : d'.frameBuffer = d.frameBuffer
  filled : 0 ≤ stop → d.term.cells d.term.currow stop ≠ 0
  blank : ∀ col, stop < col → col ≤ d.term.curcol → d.term.cells d.term.currow col = 0
  reached : (d.term.currow, stop) ∈ d'.accesses
  accesses : ∀ a ∈ d'.accesses, a ∈ d.accesses ∨ a.1 = d.term.currow ∧ stop ≤ a.2 ∧ a.2 ≤ d.term.curcol

theorem scanBack_scanned {fuel : ℕ} (hlow : -1 ≤ d.term.curcol) (hfuel : d.term.curcol + 2 ≤ fuel) :
    ∃ stop, Scanned d (scanBack fuel d) stop := by
  induction fuel generalizing d with
  | zero => omega
  | succ fuel ih =>
    rw [scanBack]
    by_cases hgo : termCurc d.term = 0 ∧ d.term.curcol ≥ 0
    · rw [if_pos hgo]
      obtain ⟨hzero, hcol⟩ := hgo
      rw [termCurc, if_pos hcol] at hzero
      obtain ⟨stop, h⟩ := @ih (moveTo (access d d.term.currow d.term.curcol) d.term.currow (d.term.curcol - 1))
        (by simp only [moveTo, access]; omega) (by simp only [moveTo, access]; omega)
      have hhigh : stop ≤ d.term.curcol - 1 := h.high
      refine ⟨stop, h.low, by omega, h.term, h.frameBuffer, h.filled, fun col hstop hle => ?_, h.reached,
        fun a ha => ?_⟩
      · rcases Int.lt_or_eq_of_le hle with hlt | rfl
        · exact h.blank col hstop (Int.le_sub_one_of_lt hlt)
        · exact hzero
      · rcases h.accesses a ha with hold | ⟨hrow, hge, hle⟩
        · rcases List.mem_cons.mp hold with rfl | hold
          · exact Or.inr ⟨rfl, by omega, le_rfl⟩
          · exact Or.inl hold
        · refine Or.inr ⟨hrow, hge, ?_⟩
          have hle' : a.2 ≤ d.term.curcol - 1 := hle
          omega
    · rw [if_neg hgo]
      refine ⟨d.term.curcol, hlow, le_rfl, rfl, rfl, fun hcol hzero => ?_, fun col hlt hle => by omega,
        List.mem_cons_self, fun a ha => ?_⟩
      · rw [termCurc, if_pos hcol] at hgo
        exact hgo ⟨hzero, hcol⟩
      · rcases List.mem_cons.mp ha with rfl | ha
        · exact Or.inr ⟨rfl, le_rfl, le_rfl⟩
        · exact Or.inl ha

theorem termPutchar_same (d : Display) (row col : ℤ) (c : UInt8) : (termPutchar d row col c).term = d.term ∧
    (termPutchar d row col c).accesses = d.accesses := by
  unfold termPutchar termRawPutchar
  split_ifs
  · exact ⟨rfl, rfl⟩
  · exact ⟨rfl, rfl⟩

/-- Back over the end of a line: the cells stay, and the screen loses the last character of a full line. -/
structure Wrapped (d d' : Display) (stop : ℤ) : Prop where
  cells : d'.term.cells = d.term.cells
  active : d'.term.active = d.term.active
  placed : Placed d'
  filled : 0 ≤ stop → d.term.cells (d.term.currow - 1) stop ≠ 0
  blank : ∀ col, stop < col → col < 80 → d.term.cells (d.term.currow - 1) col = 0
  reached : (d.term.currow - 1, stop) ∈ d'.accesses
  accesses : ∀ a ∈ d'.accesses, a ∈ d.accesses ∨ a.1 = d.term.currow - 1 ∧ stop ≤ a.2 ∧ a.2 < 80
  kept : stop ≠ 79 → d'.frameBuffer = d.frameBuffer
  ghost : stop = 79 → d.term.active = true → shown d' (d.term.currow - 1) 79 = 0

theorem wrapBack_wrapped (hd : Placed d) (hrow : 0 < d.term.currow) : ∃ stop, -1 ≤ stop ∧ stop ≤ 79 ∧
    Wrapped d (wrapBack d) stop := by
  obtain ⟨⟨-, hrow'⟩, -⟩ := hd
  obtain ⟨stop, h⟩ := @scanBack_scanned (moveTo d (d.term.currow - 1) 79) (termCols + 1)
    (by simp only [moveTo]; omega) (by simp only [moveTo, termCols]; omega)
  have hwrap : wrapBack d = if (scanBack (termCols + 1) (moveTo d (d.term.currow - 1) 79)).term.curcol ≠ 79
      then moveTo (scanBack (termCols + 1) (moveTo d (d.term.currow - 1) 79)) (scanBack (termCols + 1)
        (moveTo d (d.term.currow - 1) 79)).term.currow ((scanBack (termCols + 1)
        (moveTo d (d.term.currow - 1) 79)).term.curcol + 1)
      else termPutchar (scanBack (termCols + 1) (moveTo d (d.term.currow - 1) 79)) (scanBack (termCols + 1)
        (moveTo d (d.term.currow - 1) 79)).term.currow (scanBack (termCols + 1)
        (moveTo d (d.term.currow - 1) 79)).term.curcol 0 := rfl
  obtain ⟨f, hf⟩ : ∃ f, scanBack (termCols + 1) (moveTo d (d.term.currow - 1) 79) = f := ⟨_, rfl⟩
  rw [hf] at h hwrap
  have hlow := h.low
  have hhigh : stop ≤ 79 := h.high
  have hcurcol : f.term.curcol = stop := by rw [h.term]
  have hcurrow : f.term.currow = d.term.currow - 1 := by rw [h.term, moveTo]
  have hcells : f.term.cells = d.term.cells := by rw [h.term, moveTo]
  have hactive : f.term.active = d.term.active := by rw [h.term, moveTo]
  have hblank : ∀ col, stop < col → col < 80 → d.term.cells (d.term.currow - 1) col = 0 :=
    fun col hlt hle => h.blank col hlt (Int.le_of_lt_add_one hle)
  have haccesses : ∀ a ∈ f.accesses, a ∈ d.accesses ∨ a.1 = d.term.currow - 1 ∧ stop ≤ a.2 ∧ a.2 < 80 := by
    intro a ha
    rcases h.accesses a ha with hold | ⟨ha1, ha2, ha3⟩
    · exact Or.inl hold
    · exact Or.inr ⟨ha1, ha2, Int.lt_add_one_of_le ha3⟩
  refine ⟨stop, hlow, hhigh, ?_⟩
  rw [hwrap, hcurcol, hcurrow]
  by_cases hstop : stop = 79
  · rw [if_neg (not_not.mpr hstop)]
    obtain ⟨hterm, hacc⟩ := termPutchar_same f (d.term.currow - 1) stop 0
    refine ⟨by rw [hterm, hcells], by rw [hterm, hactive], ?_, h.filled, hblank, hacc ▸ h.reached,
      hacc ▸ haccesses, fun hne => absurd hstop hne, fun _ hon => ?_⟩
    · rw [Placed, hterm, hcurcol, hcurrow]
      exact ⟨by omega, by omega⟩
    · rw [termPutchar, if_pos (hactive.trans hon), hstop,
        shown_termRawPutchar ⟨by omega, by omega⟩ ⟨by omega, by omega⟩, if_pos ⟨rfl, rfl⟩]
  · rw [if_pos hstop]
    refine ⟨hcells, hactive, ⟨?_, ?_⟩, h.filled, hblank, h.reached, haccesses, fun _ => h.frameBuffer,
      fun hc => absurd hc hstop⟩
    · simp only [moveTo]
      omega
    · simp only [moveTo]
      omega

theorem eraseBack_updates (hd : Placed d) (hcol : d.term.curcol ≠ 0) :
    Updates d (eraseBack d) ∧ Placed (eraseBack d) := by
  obtain ⟨⟨hrow, hrow'⟩, hcol0, hcol'⟩ := hd
  have hin : Inside d.term.currow (d.term.curcol - 1) := ⟨⟨hrow, hrow'⟩, by omega, by omega⟩
  have hwrites : Writes (moveTo d d.term.currow (d.term.curcol - 1)) (eraseBack d) := .put .refl hin 0
  refine ⟨.writes (.move .refl _ _) hwrites, ?_⟩
  obtain ⟨-, hsamerow, hsamecol⟩ := hwrites.place
  rw [Placed, hsamerow, hsamecol]
  exact hin

theorem termPrintBuffer_updates (str : List UInt8) (hd : Placed d) :
    Updates d (termPrintBuffer d str) ∧ Placed (termPrintBuffer d str) := by
  induction str generalizing d with
  | nil => exact ⟨.refl, hd⟩
  | cons c str ih =>
    obtain ⟨hfirst, hplaced⟩ := termWriteChar_updates hd c
    obtain ⟨hrest, hplaced'⟩ := ih hplaced
    exact ⟨hfirst.trans hrest, hplaced'⟩

theorem termClear_updates (d : Display) : Updates d (termClear d) ∧ Placed (termClear d) := by
  refine ⟨.setCursor (.move (.writes .refl (emptyRows_writes d le_rfl)) _ _) _ _, ?_⟩
  have hcorner : Inside 0 0 := ⟨⟨le_rfl, by decide⟩, le_rfl, by decide⟩
  unfold Placed termClear
  rw [(termSetCursor_same _ _ _).1]
  exact hcorner

/-- The rows that are drawn, over whatever the screen has shown. -/
structure Drawn (d d' : Display) (rows : ℕ) (cols : ℕ) : Prop where
  term : d'.term = d.term
  accesses : (∀ a ∈ d.accesses, Inside a.1 a.2) → ∀ a ∈ d'.accesses, Inside a.1 a.2
  shown : ∀ row col, Inside row col → row < rows ∨ row = rows ∧ col < cols → shown d' row col = d.term.cells row col

theorem drawRow_drawn {rows n : ℕ} (h : Drawn d e rows 0) (hrows : rows < 25) (hn : n ≤ 80) :
    Drawn d (drawRow e rows n) rows n := by
  induction n with
  | zero => exact h
  | succ j ih =>
    obtain ⟨hterm, haccesses, hshown⟩ := ih (by omega)
    have hin : Inside (rows : ℤ) (j : ℤ) := ⟨by omega, by omega⟩
    refine ⟨hterm, fun hd => List.forall_mem_cons.mpr ⟨hin, haccesses hd⟩, fun row col hrc hdrawn => ?_⟩
    rw [drawRow, shown_termRawPutchar hrc hin]
    by_cases heq : row = rows ∧ col = j
    · rw [if_pos heq, access, hterm, heq.1, heq.2]
    · rw [if_neg heq]
      exact hshown row col hrc (by omega)

theorem drawRows_drawn (d : Display) {n : ℕ} (hn : n ≤ 25) : Drawn d (drawRows d n) n 0 := by
  induction n with
  | zero => exact ⟨rfl, id, fun row col hrc hdrawn => by have := hrc.1; have := hrc.2; omega⟩
  | succ i ih =>
    obtain ⟨hterm, haccesses, hshown⟩ := drawRow_drawn (ih (by omega)) (by omega) (le_refl 80)
    refine ⟨hterm, haccesses, fun row col hrc hdrawn => hshown row col hrc ?_⟩
    have hcol := hrc.2
    push_cast at hdrawn
    omega

theorem termFg_drawn (hd : Placed d) : Mirrored (termFg d) ∧ Placed (termFg d) ∧
    ((∀ a ∈ d.accesses, Inside a.1 a.2) → ∀ a ∈ (termFg d).accesses, Inside a.1 a.2) := by
  obtain ⟨e, he⟩ : ∃ e, termRawSetCursor { d with term := { d.term with active := true } } d.term.currow
    d.term.curcol = e := ⟨_, rfl⟩
  have hfg : termFg d = drawRows e termRows := by rw [← he, termFg]
  have hplace : Placed e ∧ e.accesses = d.accesses := by
    rw [← he]
    exact ⟨hd, rfl⟩
  obtain ⟨hterm, haccesses, hshown⟩ := drawRows_drawn e (le_refl 25)
  rw [hfg, termRows]
  refine ⟨fun row col hrc => ?_, ?_, fun ha => haccesses (by rw [hplace.2]; exact ha)⟩
  · have hrow := hrc.1
    rw [hshown row col hrc (Or.inl (by push_cast; omega)), hterm]
  · rw [Placed, hterm]
    exact hplace.1

/-- A terminal on the screen is shown there. -/
def OnScreen (d : Display) : Prop := d.term.active = true → Mirrored d

/-- The operation leaves the cursor at a cell, and has read and written cells only. -/
def Safe (d : Display) (op : Op) : Prop :=
  ∀ t, step d op = some t → Placed t ∧ ∀ a ∈ t.accesses, Inside a.1 a.2

theorem Updates.onScreen (h : Updates d d') (hd : OnScreen d) : OnScreen d' :=
  fun hactive => h.mirrored (h.active.symm.trans hactive) (hd (h.active.symm.trans hactive))

/-- The four ways of `term_backspace`. -/
theorem termBackspace_cases (hd : Placed d) :
    (Updates d (termBackspace d) ∧ Placed (termBackspace d) ∧ ¬ (d.term.curcol = 0 ∧ 0 < d.term.currow)) ∨
      (d.term.curcol = 0 ∧ 0 < d.term.currow) ∧ ∃ stop, -1 ≤ stop ∧ stop ≤ 79 ∧ Wrapped d (termBackspace d) stop := by
  unfold termBackspace
  by_cases horigin : d.term.curcol = 0 ∧ d.term.currow = 0
  · rw [if_pos horigin]
    exact Or.inl ⟨.refl, hd, by omega⟩
  rw [if_neg horigin]
  have hrow := hd.1
  by_cases hcol : d.term.curcol = 0
  · simp only [if_pos hcol]
    obtain ⟨stop, hlow, hhigh, h⟩ := wrapBack_wrapped hd (by omega)
    obtain ⟨hterm, hframe, haccesses⟩ :=
      termSetCursor_same (wrapBack d) (wrapBack d).term.currow (wrapBack d).term.curcol
    refine Or.inr ⟨⟨hcol, by omega⟩, stop, hlow, hhigh, ⟨by rw [hterm, h.cells], by rw [hterm, h.active], ?_, h.filled,
      h.blank, haccesses ▸ h.reached, haccesses ▸ h.accesses,
      fun hstop => by rw [hframe, h.kept hstop], fun hstop hon => ?_⟩⟩
    · rw [Placed, hterm]
      exact h.placed
    · rw [shown, hframe]
      exact h.ghost hstop hon
  · simp only [if_neg hcol]
    obtain ⟨hupdates, hplaced⟩ := eraseBack_updates hd hcol
    refine Or.inl ⟨.setCursor hupdates _ _, ?_, by omega⟩
    rw [Placed, (termSetCursor_same _ _ _).1]
    exact hplaced

/-- The other operations, but for `term_fg` and `term_bg`. -/
theorem run_updates (hd : Placed d) (hback : op ≠ .backspace) (hbg : op ≠ .bg) (hfg : op ≠ .fg) :
    Updates d (op.run d) ∧ Placed (op.run d) := by
  cases op with
  | writeChar c => exact termWriteChar_updates hd c
  | printBuffer str => exact termPrintBuffer_updates str hd
  | backspace => exact absurd rfl hback
  | clear => exact termClear_updates d
  | bg => exact absurd rfl hbg
  | fg => exact absurd rfl hfg

theorem run_placed (hd : Placed d) (op : Op) : Placed (op.run d) := by
  by_cases hback : op = .backspace
  · subst hback
    rcases termBackspace_cases hd with ⟨-, hplaced, -⟩ | ⟨-, stop, -, -, h⟩
    · exact hplaced
    · exact h.placed
  by_cases hbg : op = .bg
  · subst hbg
    exact hd
  by_cases hfg : op = .fg
  · subst hfg
    exact (termFg_drawn hd).2.1
  exact (run_updates hd hback hbg hfg).2

theorem run_accesses (hd : Placed d) (hfresh : d.accesses = []) (op : Op) :
    (∀ a ∈ (op.run d).accesses, Inside a.1 a.2) ↔ ¬ BlankAbove d op := by
  have hnone : ∀ a ∈ d.accesses, Inside a.1 a.2 := by
    rw [hfresh]
    exact fun a ha => absurd ha List.not_mem_nil
  have of_inside (h : ∀ a ∈ (op.run d).accesses, Inside a.1 a.2) (hne : op ≠ .backspace) :
      (∀ a ∈ (op.run d).accesses, Inside a.1 a.2) ↔ ¬ BlankAbove d op := by
    refine ⟨fun _ hblank => ?_, fun _ => h⟩
    cases op <;> first | exact hblank | exact hne rfl
  by_cases hback : op = .backspace
  · subst hback
    rcases termBackspace_cases hd with ⟨hupdates, -, hnot⟩ | ⟨hwrap, stop, hlow, hhigh, h⟩
    · exact ⟨fun _ hblank => hnot ⟨hblank.1, hblank.2.1⟩, fun _ => hupdates.accesses hnone⟩
    · constructor
      · rintro hin ⟨-, -, hblank⟩
        have hstop := (hin _ h.reached).2.1
        exact h.filled hstop (hblank stop hstop (by omega))
      · intro hblank a ha
        have hstop : 0 ≤ stop := by
          by_contra hneg
          exact hblank ⟨hwrap.1, hwrap.2, fun col hcol hlt => h.blank col (by omega) hlt⟩
        have hrow := hd.1
        rcases h.accesses a ha with hold | ⟨ha1, ha2, ha3⟩
        · exact hnone a hold
        · exact ⟨by omega, by omega⟩
  by_cases hbg : op = .bg
  · subst hbg
    exact of_inside hnone hback
  by_cases hfg : op = .fg
  · subst hfg
    exact of_inside ((termFg_drawn hd).2.2 hnone) hback
  exact of_inside ((run_updates hd hback hbg hfg).1.accesses hnone) hback

theorem run_onScreen (hd : Placed d) (hscreen : OnScreen d) (op : Op) : OnScreen (op.run d) ↔ ¬ Ghost d op := by
  have of_screen (h : OnScreen (op.run d)) (hne : op ≠ .backspace) : OnScreen (op.run d) ↔ ¬ Ghost d op := by
    refine ⟨fun _ hghost => ?_, fun _ => h⟩
    cases op <;> first | exact hghost | exact hne rfl
  by_cases hback : op = .backspace
  · subst hback
    rcases termBackspace_cases hd with ⟨hupdates, -, hnot⟩ | ⟨hwrap, stop, hlow, hhigh, h⟩
    · exact ⟨fun _ hghost => hnot ⟨hghost.2.1, hghost.2.2.1⟩, fun _ => hupdates.onScreen hscreen⟩
    · have hactive : (termBackspace d).term.active = d.term.active := h.active
      by_cases hstop : stop = 79
      · have hlast := h.filled (by omega)
        rw [hstop] at hlast
        constructor
        · rintro hon ⟨hd', -, -, -⟩
          have hin : Inside (d.term.currow - 1) 79 := ⟨by have := hd.1; omega, by omega⟩
          have hshown := hon (hactive.trans hd') (d.term.currow - 1) 79 hin
          rw [Op.run, h.ghost hstop hd', h.cells] at hshown
          exact hlast hshown.symm
        · exact fun hghost hon => absurd ⟨hactive.symm.trans hon, hwrap.1, hwrap.2, hlast⟩ hghost
      · constructor
        · exact fun _ hghost => hghost.2.2.2 (h.blank 79 (by omega) (by omega))
        · intro _ hon row col hin
          rw [shown, Op.run, h.kept hstop, h.cells]
          exact hscreen (hactive.symm.trans hon) row col hin
  by_cases hbg : op = .bg
  · subst hbg
    exact of_screen (fun hactive => absurd hactive Bool.false_ne_true) hback
  by_cases hfg : op = .fg
  · subst hfg
    exact of_screen (fun _ => (termFg_drawn hd).1) hback
  exact of_screen ((run_updates hd hback hbg hfg).1.onScreen hscreen) hback

variable {ops : List Op}

theorem placed_termInit (frameBuffer : ℤ → UInt8) (cursor : ℕ) : Placed (termInit frameBuffer cursor) := by
  have hcorner : Inside 0 0 := ⟨⟨le_rfl, by decide⟩, le_rfl, by decide⟩
  exact hcorner

theorem step_placed {op : Op} (hd : Placed d) (ht : step d op = some d') : Placed d' := by
  obtain rfl := Option.some.inj ht
  have hplaced : Placed { d with accesses := [] } := hd
  exact run_placed hplaced op

/-- The cursor stays at a cell, and only cells are read and written, exactly when no `term_backspace` goes
back from the start of a line to an empty one. -/
theorem cursor_safe_iff (frameBuffer : ℤ → UInt8) (cursor : ℕ) (ops : List Op) :
    Meets step (fun d op => ¬ BlankAbove d op) (termInit frameBuffer cursor) ops ↔
      ∀ bs op t, bs ++ [op] <+: ops → exec step (termInit frameBuffer cursor) bs = some t → Safe t op := by
  refine @meets_iff_steps Display Op step _ Placed Safe (fun d op t hd _ ht => step_placed hd ht) (fun d op hd => ?_)
    _ ops (placed_termInit frameBuffer cursor)
  have hplaced : Placed { d with accesses := [] } := hd
  have hblank : BlankAbove { d with accesses := [] } op ↔ BlankAbove d op := by cases op <;> rfl
  rw [← hblank, ← run_accesses hplaced rfl op]
  constructor
  · exact fun h => (h _ rfl).2
  · rintro h t ht
    obtain rfl := Option.some.inj ht
    exact ⟨run_placed hplaced op, h⟩

/-- The row above is empty: the column -1 is read. -/
theorem blank_row_overrun : ∃ t, exec step (termInit (fun _ => 0) 0) [.writeChar 10] = some t ∧
    ¬ Safe t .backspace := by
  refine ⟨_, rfl, fun h => ?_⟩
  have hread := (h _ rfl).2 (0, -1) (by decide)
  exact absurd hread.2.1 (by decide)

/-- The screen shows an active terminal after every operation exactly when no `term_backspace` on an active one
goes back from the start of a line to a full one. -/
theorem screen_mirrors_iff (frameBuffer : ℤ → UInt8) (cursor : ℕ) (ops : List Op) :
    Meets step (fun d op => ¬ Ghost d op) (termInit frameBuffer cursor) ops ↔
      ∀ bs t, bs <+: ops → exec step (termInit frameBuffer cursor) bs = some t → OnScreen t := by
  refine @meets_iff_prefixes Display Op step _ Placed OnScreen (fun d op t hd _ ht => step_placed hd ht)
    (fun d op t hd hscreen ht => ?_) _ _ ops (placed_termInit frameBuffer cursor)
    (fun hactive => absurd hactive Bool.false_ne_true) (exec_total (fun d op => op.run { d with accesses := [] }) _ ops)
  obtain rfl := Option.some.inj ht
  have hplaced : Placed { d with accesses := [] } := hd
  have hghost : Ghost { d with accesses := [] } op ↔ Ghost d op := by cases op <;> rfl
  rw [← hghost]
  exact run_onScreen hplaced hscreen op

/-- The last character of a full line goes from the screen, and stays in the cells. -/
theorem full_row_ghost : ∃ t, exec step (termInit (fun _ => 0) 0)
    [.fg, .printBuffer (List.replicate 80 97), .backspace] = some t ∧ ¬ OnScreen t := by
  refine ⟨_, rfl, fun h => ?_⟩
  have hshown := h (by decide +kernel) 0 79 ⟨⟨le_rfl, by decide⟩, by decide, by decide⟩
  exact absurd hshown (by decide +kernel)

end Eedox.TerminalScreen
