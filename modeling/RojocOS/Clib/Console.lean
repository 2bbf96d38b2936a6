/-
The console printer of lib.c: `console_putc` and `console_vprintf`.

`console` is an array of 25 rows of 80 cells at 0xB8000; a cell is a
character and a colour. Nothing in `console_putc` stops the cursor at the
end of the array, so the cells of the model go on behind it: cell `i` is
the 16-bit word at `0xB8000 + 2 * i`, for every `i`. The word `cursorpos`
at 0xB8FFC is made of the cells 2046 and 2047.

`written` is not in the source. It lists the cells that were stored to, the
last one first.

`printer_vprintf` hands its characters to `console_putc` one by one, each
with a colour; the model starts from these pairs.
-/
import Mathlib.Logic.Function.Basic

namespace RojocOS.Clib

structure Screen where
  cells : Nat → UInt16
  /-- `cp->cursor - console`. -/
  cursor : Nat
  written : List Nat

/-- `console[i] = v`. -/
def Screen.put (s : Screen) (i : Nat) (v : UInt16) : Screen :=
  { s with cells := Function.update s.cells i v, written := i :: s.written }

/-- `*cp->cursor++ = v`. -/
def Screen.emit (s : Screen) (v : UInt16) : Screen :=
  { s.put s.cursor v with cursor := s.cursor + 1 }

/-- `' ' | color`. -/
def blankCell (color : UInt16) : UInt16 := 32 ||| color

/-- The loop of `\n`: `n` blanks. -/
def padRow (color : UInt16) : Nat → Screen → Screen
  | 0, s => s
  | n + 1, s => padRow color n (s.emit (blankCell color))

/-- The first loop of a scroll, for `n` cells from `i` on. -/
def moveUp : Nat → Nat → Screen → Screen
  | 0, _, s => s
  | n + 1, i, s => moveUp n (i + 1) (s.put i (s.cells (i + 80)))

/-- The second loop of a scroll. -/
def fillBlank (color : UInt16) : Nat → Nat → Screen → Screen
  | 0, _, s => s
  | n + 1, i, s => fillBlank color n (i + 1) (s.put i (blankCell color))

/-- All rows but the last two go up by one. -/
def scroll (color : UInt16) (s : Screen) : Screen :=
  let s := moveUp (22 * 80) 0 s
  let s := fillBlank color 80 (22 * 80) s
  { s with cursor := s.cursor - 80 }

/-- What `console_putc` does before it looks at the cursor. -/
def putChar (c : UInt8) (color : UInt16) (s : Screen) : Screen :=
  if c = 10 then padRow color (80 - s.cursor % 80) s
  else if c = 8 then
    if s.cursor = 0 then s
    else { s.put (s.cursor - 1) (blankCell color) with cursor := s.cursor - 1 }
  else s.emit (c.toUInt16 ||| color)

/-- `console_putc(p, c, color)`. -/
def consolePutc (c : UInt8) (color : UInt16) (s : Screen) : Screen :=
  let s := putChar c color s
  if s.cursor = 23 * 80 then scroll color s else s

/-- `console_vprintf(cpos, …)`, where `text` is what `printer_vprintf`
prints. -/
def consoleVprintf (cpos : Int) (text : List (UInt8 × UInt16)) (cells : Nat → UInt16) : Screen :=
  let cpos := if cpos < 0 ∨ 2000 ≤ cpos then 0 else cpos
  text.foldl (fun s p => consolePutc p.1 p.2 s) ⟨cells, cpos.toNat, []⟩

end RojocOS.Clib
