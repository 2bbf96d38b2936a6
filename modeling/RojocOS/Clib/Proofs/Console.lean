/-
Which cells the console printer writes to.

`console_putc` scrolls when the cursor stands on one exact cell, 1840, the
first of the last two rows. Above it the cursor cannot step over that cell:
a character moves it by one and a newline to the start of a row
(`consolePutc_above`). Below it there is nothing that stops it. A start in
the last two rows is therefore safe for short texts only
(`console_stays_iff`).
-/
import RojocOS.Clib.Console

namespace RojocOS.Clib

variable {s : Screen} {color v : UInt16} {c : UInt8} {i n : Nat}
variable {N cpos hi lo : Nat} {s' s'' : Screen}

-- ==== stores

@[simp] theorem put_written (s : Screen) (i : Nat) (v : UInt16) :
    (s.put i v).written = i :: s.written := rfl

@[simp] theorem emit_cursor (s : Screen) (v : UInt16) :
    (s.emit v).cursor = s.cursor + 1 := rfl

/-- From `s` to `s'` the cells from `lo` to `hi - 1` were written, and no
others. -/
structure Wrote (lo hi : Nat) (s s' : Screen) : Prop where
  written : ∀ i, i ∈ s'.written ↔ i ∈ s.written ∨ (lo ≤ i ∧ i < hi)
  rest : ∀ i, ¬ (lo ≤ i ∧ i < hi) → s'.cells i = s.cells i

theorem Wrote.none (s : Screen) (lo : Nat) : Wrote lo lo s s :=
  ⟨fun i => ⟨.inl, fun h => h.resolve_right (by omega)⟩, fun _ _ => rfl⟩

theorem Wrote.put (s : Screen) (i : Nat) (v : UInt16) : Wrote i (i + 1) s (s.put i v) := by
  refine ⟨fun j => ?_, fun j hj => Function.update_of_ne (by omega) _ _⟩
  rw [put_written, List.mem_cons]
  constructor
  · rintro (rfl | h)
    · exact .inr ⟨Nat.le_refl j, Nat.lt_succ_self j⟩
    · exact .inl h
  · rintro (h | h)
    · exact .inr h
    · exact .inl (by omega)

theorem Wrote.emit (s : Screen) (v : UInt16) : Wrote s.cursor (s.cursor + 1) s (s.emit v) :=
  ⟨(Wrote.put s s.cursor v).written, (Wrote.put s s.cursor v).rest⟩

theorem Wrote.trans {mid : Nat} (h : Wrote lo mid s s')
    (h' : Wrote mid hi s' s'') (h1 : lo ≤ mid) (h2 : mid ≤ hi) : Wrote lo hi s s'' := by
  refine ⟨fun i => ?_, fun i hi => ?_⟩
  · rw [h'.written, h.written, or_assoc]
    refine or_congr_right ⟨fun hx => by omega, fun hx => by omega⟩
  · rw [h'.rest i (by omega), h.rest i (by omega)]

/-- The cursor may be moved. -/
theorem Wrote.cursor {n : Nat} (h : Wrote lo hi s s') :
    Wrote lo hi s { s' with cursor := n } := ⟨h.written, h.rest⟩

-- ==== loops

theorem padRow_wrote (color : UInt16) (n : Nat) : ∀ s : Screen,
    (padRow color n s).cursor = s.cursor + n
      ∧ Wrote s.cursor (s.cursor + n) s (padRow color n s) := by
  induction n with
  | zero => exact fun s => ⟨rfl, Wrote.none s _⟩
  | succ n ih =>
    intro s
    obtain ⟨hc, hw⟩ := ih (s.emit (blankCell color))
    rw [emit_cursor] at hc hw
    rw [padRow, show s.cursor + (n + 1) = s.cursor + 1 + n by omega]
    exact ⟨hc, (Wrote.emit s _).trans hw (Nat.le_succ _) (by omega)⟩

theorem moveUp_wrote (n : Nat) : ∀ (i : Nat) (s : Screen),
    (moveUp n i s).cursor = s.cursor ∧ Wrote i (i + n) s (moveUp n i s) := by
  induction n with
  | zero => exact fun i s => ⟨rfl, Wrote.none s _⟩
  | succ n ih =>
    intro i s
    obtain ⟨hc, hw⟩ := ih (i + 1) (s.put i (s.cells (i + 80)))
    rw [moveUp, show i + (n + 1) = i + 1 + n by omega]
    exact ⟨hc, (Wrote.put s i _).trans hw (Nat.le_succ _) (by omega)⟩

theorem fillBlank_wrote (color : UInt16) (n : Nat) : ∀ (i : Nat) (s : Screen),
    (fillBlank color n i s).cursor = s.cursor ∧ Wrote i (i + n) s (fillBlank color n i s) := by
  induction n with
  | zero => exact fun i s => ⟨rfl, Wrote.none s _⟩
  | succ n ih =>
    intro i s
    obtain ⟨hc, hw⟩ := ih (i + 1) (s.put i (blankCell color))
    rw [fillBlank, show i + (n + 1) = i + 1 + n by omega]
    exact ⟨hc, (Wrote.put s i _).trans hw (Nat.le_succ _) (by omega)⟩

/-- A scroll writes the first 23 rows. -/
theorem scroll_wrote (color : UInt16) (s : Screen) :
    (scroll color s).cursor = s.cursor - 80 ∧ Wrote 0 1840 s (scroll color s) := by
  obtain ⟨hc, hw⟩ := moveUp_wrote (22 * 80) 0 s
  obtain ⟨hc', hw'⟩ := fillBlank_wrote color 80 (22 * 80) (moveUp (22 * 80) 0 s)
  refine ⟨?_, (hw.trans hw' (by decide) (by decide)).cursor⟩
  show (fillBlank color 80 (22 * 80) (moveUp (22 * 80) 0 s)).cursor - 80 = _
  rw [hc', hc]

-- ==== above the last rows

/-- Nothing from cell `N` on was touched. -/
structure Below (N : Nat) (s s' : Screen) : Prop where
  written : ∀ i ∈ s'.written, i ∈ s.written ∨ i < N
  rest : ∀ i, N ≤ i → s'.cells i = s.cells i

theorem Below.refl (N : Nat) (s : Screen) :
    Below N s s := ⟨fun _ h => .inl h, fun _ _ => rfl⟩

theorem Below.trans (h : Below N s s') (h' : Below N s' s'') : Below N s s'' := by
  refine ⟨fun i hi => ?_, fun i hi => (h'.rest i hi).trans (h.rest i hi)⟩
  rcases h'.written i hi with hi | hi
  · exact h.written i hi
  · exact .inr hi

theorem Wrote.below (h : Wrote lo hi s s') (hN : hi ≤ N) : Below N s s' := by
  refine ⟨fun i hi => ?_, fun i hi => h.rest i (by omega)⟩
  exact ((h.written i).mp hi).imp_right fun hx => by omega

theorem putChar_above (c : UInt8) (color : UInt16) (h : s.cursor < 1840) :
    (putChar c color s).cursor ≤ 1840 ∧ Below 1840 s (putChar c color s) := by
  unfold putChar
  by_cases hn : c = 10
  · rw [if_pos hn]
    obtain ⟨hc, hw⟩ := padRow_wrote color (80 - s.cursor % 80) s
    exact ⟨by omega, hw.below (by omega)⟩
  rw [if_neg hn]
  by_cases hb : c = 8
  · rw [if_pos hb]
    by_cases h0 : s.cursor = 0
    · rw [if_pos h0]
      exact ⟨by omega, Below.refl 1840 s⟩
    · rw [if_neg h0]
      refine ⟨?_, ((Wrote.put s (s.cursor - 1) (blankCell color)).cursor).below (by omega)⟩
      show s.cursor - 1 ≤ 1840
      omega
  · rw [if_neg hb]
    exact ⟨by rw [emit_cursor]; omega, (Wrote.emit s _).below (by omega)⟩

/-- Above the last two rows the cursor comes to cell 1840 or stays above
it, and from there a scroll takes it up again. -/
theorem consolePutc_above (c : UInt8) (color : UInt16) (h : s.cursor < 1840) :
    (consolePutc c color s).cursor < 1840 ∧ Below 1840 s (consolePutc c color s) := by
  obtain ⟨hle, hb⟩ := putChar_above c color h
  unfold consolePutc
  dsimp only
  by_cases heq : (putChar c color s).cursor = 23 * 80
  · rw [if_pos heq]
    obtain ⟨hc, hw⟩ := scroll_wrote color (putChar c color s)
    exact ⟨by omega, hb.trans (hw.below (Nat.le_refl _))⟩
  · rw [if_neg heq]
    exact ⟨by omega, hb⟩

theorem foldl_above (text : List (UInt8 × UInt16)) : ∀ {s : Screen}, s.cursor < 1840 →
    (text.foldl (fun s p => consolePutc p.1 p.2 s) s).cursor < 1840
      ∧ Below 1840 s (text.foldl (fun s p => consolePutc p.1 p.2 s) s) := by
  induction text with
  | nil => exact fun h => ⟨h, Below.refl 1840 _⟩
  | cons p text ih =>
    intro s h
    obtain ⟨hc, hb⟩ := consolePutc_above p.1 p.2 h
    obtain ⟨hc', hb'⟩ := ih hc
    exact ⟨hc', hb.trans hb'⟩

-- ==== in the last rows

/-- Where the cursor of an endless screen goes, without backspaces. -/
def advance (pos : Nat) (p : UInt8 × UInt16) : Nat :=
  if p.1 = 10 then pos + (80 - pos % 80) else pos + 1

theorem lt_advance (pos : Nat) (p : UInt8 × UInt16) : pos < advance pos p := by
  unfold advance
  split <;> omega

theorem le_foldl_advance (text : List (UInt8 × UInt16)) : ∀ pos : Nat,
    pos ≤ text.foldl advance pos := by
  induction text with
  | nil => exact fun pos => Nat.le_refl pos
  | cons p text ih =>
    intro pos
    exact Nat.le_trans (Nat.le_of_lt (lt_advance pos p)) (ih (advance pos p))

theorem foldl_advance_plain (hc : c ≠ 10) (color : UInt16) (n : Nat) : ∀ pos : Nat,
    (List.replicate n (c, color)).foldl advance pos = pos + n := by
  induction n with
  | zero => exact fun pos => rfl
  | succ n ih =>
    intro pos
    rw [List.replicate_succ, List.foldl_cons, ih, advance, if_neg hc]
    omega

/-- In the last two rows nothing but a backspace reaches the cell where
the screen would scroll. -/
theorem consolePutc_under {p : UInt8 × UInt16} (hb : p.1 ≠ 8) (h : 1840 ≤ s.cursor) :
    (consolePutc p.1 p.2 s).cursor = advance s.cursor p
      ∧ Wrote s.cursor (advance s.cursor p) s (consolePutc p.1 p.2 s) := by
  have hput : (putChar p.1 p.2 s).cursor = advance s.cursor p
      ∧ Wrote s.cursor (advance s.cursor p) s (putChar p.1 p.2 s) := by
    unfold putChar advance
    by_cases hn : p.1 = 10
    · rw [if_pos hn, if_pos hn]
      exact padRow_wrote p.2 _ s
    · rw [if_neg hn, if_neg hb, if_neg hn]
      exact ⟨rfl, Wrote.emit s _⟩
  have hlt := lt_advance s.cursor p
  unfold consolePutc
  dsimp only
  rwa [if_neg (by omega)]

theorem foldl_under (text : List (UInt8 × UInt16)) (hb : ∀ p ∈ text, p.1 ≠ 8) :
    ∀ {s : Screen},
    1840 ≤ s.cursor → Wrote s.cursor (text.foldl advance s.cursor) s
      (text.foldl (fun s p => consolePutc p.1 p.2 s) s) := by
  induction text with
  | nil => exact fun _ => Wrote.none _ _
  | cons p text ih =>
    intro s h
    have hlt := lt_advance s.cursor p
    obtain ⟨hc, hw⟩ := consolePutc_under (hb p (.head _)) h
    have hrest := ih (fun q hq => hb q (.tail _ hq))
      (s := consolePutc p.1 p.2 s) (by omega)
    rw [hc] at hrest
    exact hw.trans hrest (Nat.le_of_lt hlt) (le_foldl_advance text _)

-- ==== together

/-- Every store went to a cell of the screen. -/
def OnScreen (s : Screen) : Prop := ∀ i ∈ s.written, i < 2000

theorem vprintf_start (h : cpos < 2000) (text : List (UInt8 × UInt16))
    (cells : Nat → UInt16) : consoleVprintf cpos text cells
      = text.foldl (fun s p => consolePutc p.1 p.2 s) ⟨cells, cpos, []⟩ := by
  unfold consoleVprintf
  rw [if_neg (by omega)]
  rfl

/-- A text without backspaces that starts in the last two rows. -/
theorem onScreen_under_iff (h : cpos < 2000) (hlow : 1840 ≤ cpos)
    {text : List (UInt8 × UInt16)} (hb : ∀ p ∈ text, p.1 ≠ 8) (cells : Nat → UInt16) :
    OnScreen (consoleVprintf cpos text cells) ↔ text.foldl advance cpos ≤ 2000 := by
  have hw := foldl_under text hb (s := ⟨cells, cpos, []⟩) hlow
  rw [vprintf_start h]
  constructor
  · intro hon
    by_contra hgt
    have hmem := (hw.written 2000).mpr (.inr ⟨Nat.le_of_lt h, Nat.lt_of_not_le hgt⟩)
    exact absurd (hon 2000 hmem) (Nat.lt_irrefl 2000)
  · intro hle i hi
    rcases (hw.written i).mp hi with hi | hi
    · cases hi
    · exact Nat.lt_of_lt_of_le hi.2 hle

/-- Which starts are safe: those above the last two rows, for every text,
and then nothing behind the screen changes. In the last two rows a text
without backspaces stays on the screen exactly if it ends there. -/
theorem console_stays_iff {cpos : Nat} (h : cpos < 2000) (cells : Nat → UInt16) :
    ((∀ text, OnScreen (consoleVprintf cpos text cells)) ↔ cpos < 1840)
    ∧ (cpos < 1840 → ∀ text i, 2000 ≤ i → (consoleVprintf cpos text cells).cells i = cells i)
    ∧ (1840 ≤ cpos → ∀ text : List (UInt8 × UInt16), (∀ p ∈ text, p.1 ≠ 8) →
      (OnScreen (consoleVprintf cpos text cells) ↔ text.foldl advance cpos ≤ 2000)) := by
  have habove : cpos < 1840 → ∀ text, Below 1840 ⟨cells, cpos, []⟩ (consoleVprintf cpos text cells) := by
    intro hlt text
    rw [vprintf_start h]
    exact (foldl_above text hlt).2
  refine ⟨⟨fun hall => ?_, fun hlt text i hi => ?_⟩, fun hlt text i hi => ?_,
    fun hlow text hb => onScreen_under_iff h hlow hb cells⟩
  · by_contra hlow
    have hb : ∀ p ∈ List.replicate (2001 - cpos) ((97, 0) : UInt8 × UInt16), p.1 ≠ 8 := by
      intro p hp
      rw [List.eq_of_mem_replicate hp]
      decide
    have hon := (onScreen_under_iff h (Nat.le_of_not_lt hlow) hb cells).mp (hall _)
    rw [foldl_advance_plain (by decide)] at hon
    omega
  · rcases (habove hlt text).written i hi with hx | hx
    · cases hx
    · omega
  · exact (habove hlt text).rest i (by omega)

/-- A message of one line. -/
theorem line_plain (n : Nat) : ∀ p ∈ List.replicate n ((33, 0x0C00) : UInt8 × UInt16)
    ++ [(10, 0x0C00)], p.1 ≠ 8 := by
  intro p hp
  rcases List.mem_append.mp hp with hp | hp
  · rw [List.eq_of_mem_replicate hp]
    decide
  · rw [List.mem_singleton.mp hp]
    decide

/-- A start on the last row but two, and a message of one row on the last. -/
theorem console_stays_iff_rows :
    (∀ text, OnScreen (consoleVprintf (1839 : Nat) text fun _ => 0))
      ∧ OnScreen (consoleVprintf (1920 : Nat)
        (List.replicate 79 (33, 0x0C00) ++ [(10, 0x0C00)]) fun _ => 0) := by
  refine ⟨(console_stays_iff (by decide) _).1.mpr (by decide), ?_⟩
  refine ((console_stays_iff (by decide) _).2.2 (by decide) _ (line_plain 79)).mpr ?_
  rw [List.foldl_append, foldl_advance_plain (by decide)]
  decide

/-- A message of 80 characters and a newline on the last row, where the
kernel reports page faults: it goes over the end of the screen and over
`cursorpos`. -/
theorem page_fault_message_overruns :
    2046 ∈ (consoleVprintf (1920 : Nat)
        (List.replicate 80 (33, 0x0C00) ++ [(10, 0x0C00)]) fun _ => 0).written
      ∧ ¬ OnScreen (consoleVprintf (1920 : Nat)
        (List.replicate 80 (33, 0x0C00) ++ [(10, 0x0C00)]) fun _ => 0) := by
  have hw := foldl_under (List.replicate 80 (33, 0x0C00) ++ [(10, 0x0C00)]) (line_plain 80)
    (s := ⟨fun _ => 0, 1920, []⟩) (by decide)
  rw [List.foldl_append, foldl_advance_plain (by decide)] at hw
  rw [vprintf_start (by decide)]
  have hmem := (hw.written 2046).mpr (.inr (by decide))
  exact ⟨hmem, fun hon => absurd (hon 2046 hmem) (by decide)⟩

end RojocOS.Clib
