/-
The scrolling part of the console as a terminal.

`Terminal` is what the first 23 rows are for, without addresses: rows of
cells and a position that cannot leave them. A newline blanks the rest of
the row, a backspace the cell before the position, and behind the last row
all rows go up by one. `Shows` relates it to the cells and the cursor of
the code. A byte keeps it (`Shows.step`), so a text does, and the cursor
never steps over the one cell where `console_putc` scrolls.
-/
import RojocOS.Clib.Proofs.Console

namespace RojocOS.Clib

-- ==== the terminal

/-- 23 rows of 80 cells, and a position. -/
structure Terminal where
  cells : Fin 23 → Fin 80 → UInt16
  row : Fin 23
  col : Fin 80

namespace Terminal

/-- To the start of the next row. Behind the last one all rows go up by
one, and the last becomes blank. -/
def lineFeed (color : UInt16) (t : Terminal) : Terminal :=
  if h : t.row.val + 1 < 23 then { t with row := ⟨t.row + 1, h⟩, col := 0 }
  else
    { t with
      cells := fun r c => if h : r.val + 1 < 23 then t.cells ⟨r + 1, h⟩ c else blankCell color
      col := 0 }

/-- The cell at the position. -/
def write (v : UInt16) (t : Terminal) : Terminal :=
  { t with cells := fun r c => if r = t.row ∧ c = t.col then v else t.cells r c }

/-- A character is written and the position moves on. -/
def type (v color : UInt16) (t : Terminal) : Terminal :=
  if h : t.col.val + 1 < 80 then { t.write v with col := ⟨t.col + 1, h⟩ }
  else (t.write v).lineFeed color

def newline (color : UInt16) (t : Terminal) : Terminal :=
  lineFeed color
    { t with cells := fun r c => if r = t.row ∧ t.col ≤ c then blankCell color else t.cells r c }

/-- The position before this one, if there is one. -/
def back (t : Terminal) : Terminal :=
  if 0 < t.col.val then { t with col := ⟨t.col - 1, by omega⟩ }
  else if 0 < t.row.val then { t with row := ⟨t.row - 1, by omega⟩, col := 79 }
  else t

def backspace (color : UInt16) (t : Terminal) : Terminal :=
  if t.row = 0 ∧ t.col = 0 then t else t.back.write (blankCell color)

def step (t : Terminal) (p : UInt8 × UInt16) : Terminal :=
  if p.1 = 10 then t.newline p.2
  else if p.1 = 8 then t.backspace p.2
  else t.type (p.1.toUInt16 ||| p.2) p.2

/-- The terminal that has these cells and is at cell `cpos`. -/
def start (cells : Nat → UInt16) {cpos : Nat} (h : cpos < 1840) : Terminal where
  cells r c := cells (r * 80 + c)
  row := ⟨cpos / 80, by omega⟩
  col := ⟨cpos % 80, by omega⟩

end Terminal

/-- The rows and the position are those of the terminal. -/
structure Shows (s : Screen) (t : Terminal) : Prop where
  cursor : s.cursor = t.row * 80 + t.col
  cells : ∀ (r : Fin 23) (c : Fin 80), s.cells (r * 80 + c) = t.cells r c

-- ==== what the loops leave

theorem put_cells (s : Screen) (i : Nat) (v : UInt16) (j : Nat) :
    (s.put i v).cells j = if j = i then v else s.cells j := Function.update_apply s.cells i v j

theorem emit_cells (s : Screen) (v : UInt16) (j : Nat) :
    (s.emit v).cells j = if j = s.cursor then v else s.cells j := put_cells s s.cursor v j

theorem padRow_cells (color : UInt16) (n : Nat) : ∀ (s : Screen) (j : Nat),
    (padRow color n s).cells j
      = if s.cursor ≤ j ∧ j < s.cursor + n then blankCell color else s.cells j := by
  induction n with
  | zero => exact fun s j => (if_neg (by omega)).symm
  | succ n ih =>
    intro s j
    rw [padRow, ih, emit_cursor, emit_cells]
    grind

theorem moveUp_cells (n : Nat) : ∀ (i : Nat) (s : Screen) (j : Nat),
    (moveUp n i s).cells j = if i ≤ j ∧ j < i + n then s.cells (j + 80) else s.cells j := by
  induction n with
  | zero => exact fun i s j => (if_neg (by omega)).symm
  | succ n ih =>
    intro i s j
    -- the cell 80 further on is read before it is written
    rw [moveUp, ih, put_cells, put_cells]
    grind

theorem fillBlank_cells (color : UInt16) (n : Nat) : ∀ (i : Nat) (s : Screen) (j : Nat),
    (fillBlank color n i s).cells j
      = if i ≤ j ∧ j < i + n then blankCell color else s.cells j := by
  induction n with
  | zero => exact fun i s j => (if_neg (by omega)).symm
  | succ n ih =>
    intro i s j
    rw [fillBlank, ih, put_cells]
    grind

theorem scroll_cells (color : UInt16) (s : Screen) {j : Nat} (h : j < 1840) :
    (scroll color s).cells j = if j < 1760 then s.cells (j + 80) else blankCell color := by
  show (fillBlank color 80 (22 * 80) (moveUp (22 * 80) 0 s)).cells j = _
  rw [fillBlank_cells, moveUp_cells]
  grind

-- ==== one byte

section Step

variable {s : Screen} {t : Terminal} {color : UInt16}

/-- The end of `console_putc`. -/
def settle (color : UInt16) (s : Screen) : Screen :=
  if s.cursor = 23 * 80 then scroll color s else s

/-- A position of the terminal is not the cell where the screen scrolls. -/
theorem Shows.inside (h : Shows s t) : Shows (settle color s) t := by
  have hc := h.cursor
  have hr := t.row.isLt
  have hcol := t.col.isLt
  unfold settle
  rwa [if_neg (by omega)]

/-- At the end of a row the terminal feeds a line. -/
theorem settle_lineFeed (hcursor : s.cursor = t.row * 80 + 80)
    (hcells : ∀ (r : Fin 23) (c : Fin 80), s.cells (r * 80 + c) = t.cells r c) :
    Shows (settle color s) (t.lineFeed color) := by
  have hr := t.row.isLt
  unfold settle Terminal.lineFeed
  by_cases hlast : t.row.val + 1 < 23
  · rw [if_neg (by omega), dif_pos hlast]
    refine ⟨?_, hcells⟩
    show s.cursor = (t.row.val + 1) * 80 + 0
    omega
  · rw [if_pos (by omega), dif_neg hlast]
    refine ⟨?_, fun r c => ?_⟩
    · show (scroll color s).cursor = t.row.val * 80 + 0
      rw [(scroll_wrote color s).1]
      omega
    · have hlt := r.isLt
      have hcol := c.isLt
      rw [scroll_cells color s (by omega)]
      dsimp only
      by_cases hnext : r.val + 1 < 23
      · have haddr : r.val * 80 + c.val + 80 = (r.val + 1) * 80 + c.val := by omega
        rw [if_pos (by omega), dif_pos hnext, haddr]
        exact hcells ⟨r + 1, hnext⟩ c
      · rw [if_neg (by omega), dif_neg hnext]

/-- Two cells of the rows are the same if their numbers are. -/
theorem cell_eq_iff {r r' : Fin 23} {c c' : Fin 80} :
    r.val * 80 + c.val = r'.val * 80 + c'.val ↔ r = r' ∧ c = c' := by
  have hc := c.isLt
  have hc' := c'.isLt
  rw [Fin.ext_iff, Fin.ext_iff]
  omega

/-- A store to the cell at the terminal's position. -/
theorem Shows.put (h : Shows s t) (v : UInt16) (r : Fin 23) (c : Fin 80) :
    (s.put (t.row * 80 + t.col) v).cells (r * 80 + c) = (t.write v).cells r c := by
  rw [put_cells, h.cells r c]
  simp only [cell_eq_iff, Terminal.write]

theorem Shows.type (h : Shows s t) (v : UInt16) :
    Shows (settle color (s.emit v)) (t.type v color) := by
  have hcells := h.put v
  rw [← h.cursor] at hcells
  have hcursor := h.cursor
  unfold Terminal.type
  by_cases hcol : t.col.val + 1 < 80
  · rw [dif_pos hcol]
    refine Shows.inside ⟨?_, hcells⟩
    show s.cursor + 1 = t.row.val * 80 + (t.col.val + 1)
    omega
  · rw [dif_neg hcol]
    refine settle_lineFeed ?_ hcells
    have hlt := t.col.isLt
    show s.cursor + 1 = t.row.val * 80 + 80
    omega

theorem Shows.newline (h : Shows s t) :
    Shows (settle color (padRow color (80 - s.cursor % 80) s)) (t.newline color) := by
  have hcursor := h.cursor
  have hcol := t.col.isLt
  refine settle_lineFeed ?_ fun r c => ?_
  · rw [(padRow_wrote color _ s).1]
    show _ = t.row.val * 80 + 80
    omega
  · have hc := c.isLt
    have hrest : (s.cursor ≤ r.val * 80 + c.val
        ∧ r.val * 80 + c.val < s.cursor + (80 - s.cursor % 80)) ↔ r = t.row ∧ t.col ≤ c := by
      rw [Fin.ext_iff, Fin.le_def]
      omega
    rw [padRow_cells, h.cells r c]
    simp only [hrest]

theorem Shows.back (h : Shows s t) (h0 : s.cursor ≠ 0) :
    Shows { s with cursor := s.cursor - 1 } t.back := by
  have hcursor := h.cursor
  unfold Terminal.back
  by_cases hcol : 0 < t.col.val
  · rw [if_pos hcol]
    refine ⟨?_, h.cells⟩
    show s.cursor - 1 = t.row.val * 80 + (t.col.val - 1)
    omega
  · have hrow : 0 < t.row.val := by omega
    rw [if_neg hcol, if_pos hrow]
    refine ⟨?_, h.cells⟩
    show s.cursor - 1 = (t.row.val - 1) * 80 + 79
    omega

theorem Shows.backspace (h : Shows s t) :
    Shows (settle color (if s.cursor = 0 then s
      else { s.put (s.cursor - 1) (blankCell color) with cursor := s.cursor - 1 }))
      (t.backspace color) := by
  have hcursor := h.cursor
  have hzero : s.cursor = 0 ↔ t.row = 0 ∧ t.col = 0 := by
    rw [Fin.ext_iff, Fin.ext_iff]
    show _ ↔ t.row.val = 0 ∧ t.col.val = 0
    omega
  unfold Terminal.backspace
  by_cases h0 : s.cursor = 0
  · rw [if_pos h0, if_pos (hzero.mp h0)]
    exact h.inside
  · rw [if_neg h0, if_neg fun hx => h0 (hzero.mpr hx)]
    have hback := h.back h0
    have hput := hback.put (blankCell color)
    rw [← hback.cursor] at hput
    exact Shows.inside ⟨hback.cursor, hput⟩

/-- `console_putc` does to the screen what its byte does to the
terminal. -/
theorem Shows.step (h : Shows s t) (p : UInt8 × UInt16) :
    Shows (consolePutc p.1 p.2 s) (t.step p) := by
  show Shows (settle p.2 (putChar p.1 p.2 s)) _
  unfold putChar Terminal.step
  by_cases hn : p.1 = 10
  · rw [if_pos hn, if_pos hn]
    exact h.newline
  rw [if_neg hn, if_neg hn]
  by_cases hb : p.1 = 8
  · rw [if_pos hb, if_pos hb]
    exact h.backspace
  · rw [if_neg hb, if_neg hb]
    exact h.type _

theorem Shows.run (text : List (UInt8 × UInt16)) : ∀ {s : Screen}
    {t : Terminal}, Shows s t →
    Shows (text.foldl (fun s p => consolePutc p.1 p.2 s) s) (text.foldl Terminal.step t) := by
  induction text with
  | nil => exact fun h => h
  | cons p text ih => exact fun h => ih (h.step p)

end Step

-- ==== the region

/-- A text that starts above the last two rows: the cursor stays above
them, they are not written, and the rest is the terminal's. -/
theorem scrolling_region {cpos : Nat} (h : cpos < 1840) (text : List (UInt8 × UInt16))
    (cells : Nat → UInt16) :
    let s : Screen := consoleVprintf cpos text cells
    s.cursor < 1840 ∧ (∀ i ∈ s.written, i < 1840) ∧ (∀ i, 1840 ≤ i → s.cells i = cells i)
      ∧ Shows s (text.foldl Terminal.step (Terminal.start cells h)) := by
  intro s
  have hs : s = text.foldl (fun s p => consolePutc p.1 p.2 s) ⟨cells, cpos, []⟩ :=
    vprintf_start (by omega) text cells
  obtain ⟨hcursor, hbelow⟩ := foldl_above text (s := ⟨cells, cpos, []⟩) h
  have hstart : Shows ⟨cells, cpos, []⟩ (Terminal.start cells h) :=
    ⟨(Nat.div_add_mod' cpos 80).symm, fun _ _ => rfl⟩
  rw [hs]
  refine ⟨hcursor, fun i hi => ?_, hbelow.rest, hstart.run text⟩
  exact (hbelow.written i hi).resolve_left List.not_mem_nil

/-- A character in the last cell of the region is one row higher
afterwards, and a newline there blanks the cell. -/
theorem scrolling_region_last_cell :
    (consoleVprintf (1839 : Nat) [(97, 0x0700)] fun _ => 0).cells 1759 = 0x0761
      ∧ (consoleVprintf (1839 : Nat) [(10, 0x0700)] fun _ => 0).cells 1759 = 0x0720 :=
  ⟨(scrolling_region (by decide) [(97, 0x0700)] fun _ => 0).2.2.2.cells 21 79,
    (scrolling_region (by decide) [(10, 0x0700)] fun _ => 0).2.2.2.cells 21 79⟩

end RojocOS.Clib
