/-
How long the paths of `join_path` are.

# The measure

The component loop puts a slash in front of a component unless `temp`
ends in one. So what a component can add is measured from `temp` with a
slash behind it (`room`): dropping components never raises it, adding one
raises it by the component and its slash (`room_joinComponent`). Over the
loop these sum to the length of the path (`length_componentsFrom`).

# The root

What comes out starts with a slash whatever went in (`head?_resolved`),
which is why a working directory stays absolute.
-/
import RojocOS.Kernel.FileCalls

namespace RojocOS.Kernel

open ByteMap Fs

variable {cwd path p temp comp : Path}

-- ==== the slash

/-- The path with a slash at its end. -/
def slashed (p : Path) : Path := if p.getLast? = some slash then p else p ++ [slash]

/-- The length of `slashed`, for a path kept in reverse. -/
def room (temp : Path) : Nat :=
  if temp.head? = some slash then temp.length else temp.length + 1

theorem length_slashed (p : Path) : (slashed p).length = room p.reverse := by
  unfold slashed room
  rw [List.head?_reverse, List.length_reverse]
  split
  · rfl
  · exact List.length_append

theorem le_room (temp : Path) : temp.length ≤ room temp := by
  unfold room
  split <;> omega

theorem room_le (temp : Path) : room temp ≤ temp.length + 1 := by
  unfold room
  split <;> omega

theorem room_pos (temp : Path) : 1 ≤ room temp := by
  cases temp with
  | nil => exact Nat.le_refl 1
  | cons c cs => exact Nat.le_trans (Nat.succ_pos cs.length) (le_room (c :: cs))

theorem head?_stripSlash (p : Path) : (stripSlash p).head? = p.head? := by
  unfold stripSlash
  split
  · rename_i h
    cases p with
    | nil => rfl
    | cons c cs =>
      cases cs with
      | nil => exact absurd h.1 (by simp)
      | cons d ds => rfl
  · rfl

theorem length_stripSlash (p : Path) : (stripSlash p).length ≤ p.length := by
  unfold stripSlash
  split
  · rw [List.length_dropLast]
    exact Nat.sub_le _ _
  · exact Nat.le_refl _

/-- Behind `stripSlash` there is a slash only if that is all. -/
theorem length_stripSlash_reverse (temp : Path) :
    (stripSlash temp.reverse).length ≤ max 1 (room temp - 1) := by
  unfold stripSlash room
  rw [List.getLast?_reverse, List.length_reverse]
  by_cases hs : temp.head? = some slash
  · rw [if_pos hs]
    by_cases h1 : 1 < temp.length
    · rw [if_pos ⟨h1, hs⟩, List.length_dropLast, List.length_reverse]
      exact Nat.le_max_right _ _
    · rw [if_neg (fun h => h1 h.1), List.length_reverse]
      exact Nat.le_trans (Nat.le_of_not_lt h1) (Nat.le_max_left _ _)
  · rw [if_neg hs, if_neg (fun h => hs h.2), List.length_reverse]
    exact Nat.le_max_right _ _

-- ==== the absolute case

theorem length_squeezeFrom (path : Path) : ∀ pending : Bool,
    (squeezeFrom pending path).length ≤ path.length + pending.toNat := by
  induction path with
  | nil => exact fun _ => Nat.zero_le _
  | cons c cs ih =>
    intro pending
    have ht := ih true
    unfold squeezeFrom
    by_cases hc : c = slash
    · rw [if_pos hc]
      simp only [Bool.toNat_true, List.length_cons] at *
      omega
    · rw [if_neg hc]
      cases pending <;> simp at * <;> omega

theorem length_joinAbsolute (h : path.head? = some slash) :
    (joinAbsolute path).length ≤ path.length := by
  refine Nat.le_trans (length_stripSlash _) ?_
  cases path with
  | nil => cases h
  | cons c cs => exact Nat.succ_le_succ (length_squeezeFrom cs false)

theorem head?_joinAbsolute (path : Path) : (joinAbsolute path).head? = some slash :=
  head?_stripSlash _

-- ==== the relative case

/-- The bytes of the components, with a slash to each. -/
theorem length_componentsFrom (path : Path) : ∀ cur : Path,
    ((componentsFrom cur path).map fun c => c.length + 1).sum
      = cur.length + path.length + 1 := by
  induction path with
  | nil =>
    intro cur
    simp [componentsFrom]
  | cons c cs ih =>
    intro cur
    unfold componentsFrom
    by_cases hc : c = slash
    · rw [if_pos hc, List.map_cons, List.sum_cons, ih]
      simp only [List.length_reverse, List.length_cons, List.length_nil]
      omega
    · rw [if_neg hc, ih]
      simp only [List.length_cons]
      omega

theorem room_popLast (temp : Path) : room (popLast temp) ≤ room temp := by
  fun_induction popLast temp with
  | case1 => exact Nat.le_refl _
  | case2 c => exact Nat.le_refl _
  | case3 d cs => exact Nat.le_refl _
  | case4 c d cs hc ih =>
    have h1 := room_le (d :: cs)
    have h2 := le_room (c :: d :: cs)
    rw [List.length_cons] at h2
    omega

theorem room_popComponent (temp : Path) : room (popComponent temp) ≤ room temp := by
  unfold popComponent
  by_cases h1 : temp.length ≤ 1
  · exact Nat.le_of_eq (congrArg room (if_pos h1))
  · rw [if_neg h1]
    refine Nat.le_trans (room_popLast _) ?_
    by_cases hs : temp.head? = some slash
    · have h2 := room_le temp.tail
      have h3 := le_room temp
      rw [if_pos hs]
      rw [List.length_tail] at h2
      omega
    · exact Nat.le_of_eq (congrArg room (if_neg hs))

theorem room_addComponent (temp comp : Path) :
    room (addComponent temp comp) ≤ room temp + comp.length + 1 := by
  unfold addComponent
  refine Nat.le_trans (room_le _) ?_
  have hfront : ∀ l : Path, (if temp.head? = some slash then temp
      else if temp.length < 511 then slash :: temp else temp) = l → l.length ≤ room temp := by
    rintro l rfl
    unfold room
    split
    · exact Nat.le_refl _
    · split
      · exact Nat.le_refl _
      · exact Nat.le_succ _
  generalize hl : (if temp.head? = some slash then temp
      else if temp.length < 511 then slash :: temp else temp) = l
  have h1 := hfront l hl
  rw [List.length_append, List.length_reverse, List.length_take]
  omega

theorem room_joinComponent (temp comp : Path) :
    room (joinComponent temp comp) ≤ room temp + comp.length + 1 := by
  unfold joinComponent
  split
  · omega
  · split
    · have := room_popComponent temp
      omega
    · split
      · omega
      · exact room_addComponent temp comp

theorem room_foldl (comps : List Path) : ∀ temp : Path,
    room (comps.foldl joinComponent temp)
      ≤ room temp + (comps.map fun c => c.length + 1).sum := by
  induction comps with
  | nil => exact fun temp => Nat.le_refl _
  | cons c comps ih =>
    intro temp
    have h1 := ih (joinComponent temp c)
    have h2 := room_joinComponent temp c
    rw [List.foldl_cons, List.map_cons, List.sum_cons]
    omega

-- the last byte of `temp` is the first of the path

theorem getLast?_popLast (temp : Path) : (popLast temp).getLast? = temp.getLast? := by
  fun_induction popLast temp with
  | case1 => rfl
  | case2 c => rfl
  | case3 d cs => rfl
  | case4 c d cs hc ih => rw [ih, List.getLast?_cons_cons]

theorem getLast?_joinComponent (h : temp.getLast? = some slash) (comp : Path) :
    (joinComponent temp comp).getLast? = some slash := by
  unfold joinComponent
  split
  · exact h
  · split
    · unfold popComponent
      split
      · exact h
      · rename_i hlen
        rw [getLast?_popLast]
        split
        · cases temp with
          | nil => exact absurd (Nat.zero_le 1) hlen
          | cons c cs =>
            cases cs with
            | nil => exact absurd (Nat.le_refl 1) hlen
            | cons d ds => rwa [List.getLast?_cons_cons] at h
        · exact h
    · split
      · exact h
      · unfold addComponent
        have hfront : (if temp.head? = some slash then temp
            else if temp.length < 511 then slash :: temp else temp).getLast? = some slash := by
          split
          · exact h
          · split
            · rw [List.getLast?_cons, h]
              rfl
            · exact h
        rw [List.getLast?_append, hfront]
        rfl

theorem getLast?_foldl (comps : List Path) : ∀ {temp : Path}, temp.getLast? = some slash →
    (comps.foldl joinComponent temp).getLast? = some slash := by
  induction comps with
  | nil => exact fun h => h
  | cons c comps ih => exact fun h => ih (getLast?_joinComponent h c)

theorem head?_joinStart (cwd : Path) : (joinStart cwd).head? = some slash := by
  unfold joinStart
  rw [head?_stripSlash]
  split
  · assumption
  · rfl

/-- The buffer `temp` the loop starts with. -/
theorem getLast?_start (cwd : Path) :
    ((joinStart cwd).take 511).reverse.getLast? = some slash := by
  have h := head?_joinStart cwd
  rw [List.getLast?_reverse]
  cases hp : joinStart cwd with
  | nil =>
    rw [hp] at h
    cases h
  | cons c cs =>
    rw [hp] at h
    exact h

theorem head?_joinRelative (cwd path : Path) :
    (joinRelative cwd path).head? = some slash := by
  unfold joinRelative
  rw [head?_stripSlash, List.head?_reverse]
  split
  · rfl
  · exact getLast?_foldl _ (getLast?_start cwd)

/-- A directory a process can be in. -/
def Absolute (p : Path) : Prop := p = [] ∨ p.head? = some slash

/-- The first thing in the buffer is no longer than the directory and its
slash. -/
theorem room_joinStart (h : Absolute cwd) : room (joinStart cwd).reverse ≤
    (slashed cwd).length := by
  rcases h with rfl | h
  · decide
  rw [length_slashed]
  unfold joinStart
  rw [if_pos h]
  unfold stripSlash
  by_cases hs : 1 < cwd.length ∧ cwd.getLast? = some slash
  · have h1 := room_le cwd.dropLast.reverse
    have h2 := le_room cwd.reverse
    rw [if_pos hs]
    rw [List.length_reverse, List.length_dropLast] at h1
    rw [List.length_reverse] at h2
    omega
  · exact Nat.le_of_eq (congrArg (fun p : Path => room p.reverse) (if_neg hs))

theorem length_joinStart (h : Absolute cwd) : (joinStart cwd).length ≤
    (slashed cwd).length := by
  have h1 := le_room (joinStart cwd).reverse
  rw [List.length_reverse] at h1
  exact Nat.le_trans h1 (room_joinStart h)

/-- The relative path behind the directory and its slash is the longest
result. -/
theorem length_joinRelative (path : List UInt8) (h : Absolute cwd)
    (hcwd : (slashed cwd).length ≤ 511) :
    (joinRelative cwd path).length ≤ (slashed cwd).length + path.length := by
  unfold joinRelative
  have hstart := room_joinStart h
  have hpos := room_pos (joinStart cwd).reverse
  rw [List.take_of_length_le (Nat.le_trans (length_joinStart h) hcwd)]
  have hfold := room_foldl (componentsFrom [] path) (joinStart cwd).reverse
  have hsum := length_componentsFrom path []
  rw [hsum, List.length_nil] at hfold
  refine Nat.le_trans (length_stripSlash_reverse _) ?_
  by_cases hnil : (componentsFrom [] path).foldl joinComponent (joinStart cwd).reverse = []
  · rw [if_pos hnil]
    have : room [slash] = 1 := rfl
    omega
  · rw [if_neg hnil]
    omega

-- ==== together

/-- The process's string alone, or behind its directory, is at most 255
bytes long. -/
def Fits (cwd str : Path) : Prop :=
  if str.head? = some slash then str.length ≤ 255
  else (slashed cwd).length + str.length ≤ 255

instance (cwd str : Path) : Decidable (Fits cwd str) :=
  inferInstanceAs (Decidable (if str.head? = some slash then str.length ≤ 255
    else (slashed cwd).length + str.length ≤ 255))

/-- A string that fits is not too long for the buffer, at no moment of
`join_path`. -/
theorem Fits.not_tooLong (h : Fits cwd path) (hcwd : Absolute cwd) :
    ¬ tooLong cwd path := by
  unfold tooLong resolved
  unfold Fits at h
  by_cases habs : path.head? = some slash
  · rw [if_pos habs] at h ⊢
    have hlen := length_joinAbsolute habs
    rintro (⟨hne, -⟩ | hlong)
    · exact hne habs
    · omega
  · rw [if_neg habs] at h ⊢
    have hstart := length_joinStart hcwd
    have hlen := length_joinRelative path hcwd (by omega)
    rintro (⟨-, hlong⟩ | hlong) <;> omega

end RojocOS.Kernel
