/-
What `join_path` computes.

# The specification

A `normpath` (string.h) is a stack of components with a slash in front of
each, and a path is a list of instructions for the stack: its parts are
pushed one after the other, where an empty part and `.` do nothing and `..`
takes the last component away (`descend`).

# The code

The relative case keeps the stack as text in one buffer. `..` leaves a
slash at the end of it, and the next component does not get another one, so
the buffer reads as the stack with or without a slash behind it (`Reads`). One
turn of the loop goes from one such text to the next
(`Reads.joinComponent`), and so does the loop.

The absolute case is written separately. It squeezes slashes and looks at
nothing else: `.` and `..` stay, and a slash right behind the first one
stays too (`joinAbsolute_eq`).
-/
import RojocOS.Fs.Proofs.Lookup
import RojocOS.Kernel.Proofs.PathLength

namespace RojocOS.Kernel

open Fs

variable {cwd path p temp c r : Path} {cs comps : List Path}

-- ==== the specification

/-- A component of a `normpath`. -/
structure Component (c : Path) : Prop where
  nonempty : c ≠ []
  noSlash : slash ∉ c
  notDot : c ≠ [dot]
  notDots : c ≠ [dot, dot]

theorem Component.solid (h : Component c) : c ≠ [] ∧ slash ∉ c := ⟨h.nonempty, h.noSlash⟩

/-- A `normpath`, in the words of string.h: it begins with a slash, has no
two slashes in a row, ends with a slash only if it is `/`, and has no `.`
or `..` between its slashes. -/
structure Normal (p : Path) : Prop where
  head : p.head? = some slash
  single : ¬ [slash, slash] <:+: p
  last : p.getLast? = some slash → p = [slash]
  noDot : [dot] ∉ parts p
  noDots : [dot, dot] ∉ parts p

/-- One part of a path, from a directory given by its components. -/
def descend (cs : List Path) (c : Path) : List Path :=
  if c = [] ∨ c = [dot] then cs
  else if c = [dot, dot] then cs.dropLast
  else cs ++ [c]

theorem descend_components (hcs : ∀ d ∈ cs, Component d) (hc : slash ∉ c) :
    ∀ d ∈ descend cs c, Component d := by
  intro d hd
  unfold descend at hd
  split at hd
  · exact hcs d hd
  · rename_i h1
    split at hd
    · exact hcs d (List.dropLast_subset cs hd)
    · rename_i h2
      rcases List.mem_append.mp hd with hd | hd
      · exact hcs d hd
      · rw [List.mem_singleton.mp hd]
        exact ⟨fun h => h1 (.inl h), hc, fun h => h1 (.inr h), h2⟩

theorem foldl_descend_components (hc : ∀ c ∈ comps, slash ∉ c) :
    ∀ {cs : List Path}, (∀ d ∈ cs, Component d) → ∀ d ∈ comps.foldl descend cs, Component d := by
  induction comps with
  | nil => exact fun hcs => hcs
  | cons c comps ih =>
    intro cs hcs
    exact ih (fun d hd => hc d (.tail _ hd)) (descend_components hcs (hc c (.head _)))

-- ==== normal paths

theorem joinNames_append (cs ds : List Path) : joinNames
    (cs ++ ds) = joinNames cs ++ joinNames ds :=
  List.flatMap_append

theorem joinNames_concat (cs : List Path) (c : Path) :
    joinNames (cs ++ [c]) = joinNames cs ++ slash :: c := by
  rw [joinNames_append]
  exact congrArg (joinNames cs ++ slash :: ·) (List.append_nil c)

theorem render_concat (cs : List Path) (c : Path) :
    render (cs ++ [c]) = joinNames cs ++ slash :: c := by
  unfold render
  rw [if_neg (by simp), joinNames_concat]

theorem render_ne_nil (cs : List Path) : render cs ≠ [] := by
  intro hnil
  have := render_head cs
  rw [hnil] at this
  cases this

theorem parts_render (hne : cs ≠ []) (h : ∀ c ∈ cs, slash ∉ c) :
    parts (render cs) = [] :: cs := by
  have hj := pathParts_joinNames h
  unfold render
  rw [if_neg hne]
  obtain ⟨c, ds, rfl⟩ := List.exists_cons_of_ne_nil hne
  have hhead : joinNames (c :: ds) = slash :: (c ++ joinNames ds) := rfl
  rw [hhead] at hj ⊢
  rw [parts, if_pos rfl]
  exact congrArg ([] :: ·) hj

/-- Names do not end in a slash, and so a path made of names does not. -/
theorem getLast?_render (hne : cs ≠ []) (h : ∀ c ∈ cs, c ≠ [] ∧ slash ∉ c) :
    (render cs).getLast? ≠ some slash := by
  obtain ⟨ds, c, rfl⟩ := (List.eq_nil_or_concat' cs).resolve_left hne
  obtain ⟨hnil, hslash⟩ := h c (List.mem_append_right _ (.head _))
  rw [render_concat, List.getLast?_append, List.getLast?_cons,
    List.getLast?_eq_getLast_of_ne_nil hnil]
  intro hlast
  have hmem := List.getLast_mem hnil
  simp at hlast
  exact hslash (hlast ▸ hmem)

/-- The two readings of "normalised": by the text and by the components. -/
theorem normal_iff : Normal p ↔ ∃ cs, (∀ c ∈ cs, Component c) ∧ p = render cs := by
  constructor
  · intro h
    cases p with
    | nil => cases h.head
    | cons x t =>
      obtain rfl : x = slash := Option.some.inj h.head
      by_cases ht : t = []
      · subst ht
        exact ⟨[], nofun, rfl⟩
      have hparts : parts (slash :: t) = [] :: parts t := by rw [parts, if_pos rfl]
      have hjoin := joinNames_parts t
      refine ⟨parts t, fun c hc => ⟨?_, slash_not_mem_parts t c hc, ?_, ?_⟩, ?_⟩
      · -- an empty part is two slashes in a row, or one at the end
        rintro rfl
        obtain ⟨l1, l2, hl⟩ := List.append_of_mem hc
        rw [hl, joinNames_append] at hjoin
        cases l2 with
        | nil =>
          have hlast : (slash :: t).getLast? = some slash := by
            rw [← hjoin]
            exact List.getLast?_concat
          exact ht (List.cons.inj (h.last hlast)).2
        | cons d l2 =>
          refine h.single ⟨joinNames l1, d ++ joinNames l2, ?_⟩
          rw [← hjoin, List.append_assoc]
          rfl
      · rintro rfl
        exact h.noDot (hparts ▸ List.mem_cons_of_mem _ hc)
      · rintro rfl
        exact h.noDots (hparts ▸ List.mem_cons_of_mem _ hc)
      · unfold render
        rw [if_neg (parts_ne_nil t), hjoin]
  · rintro ⟨cs, hcs, rfl⟩
    by_cases hne : cs = []
    · subst hne
      exact ⟨rfl, by decide, fun _ => rfl, by decide, by decide⟩
    have hslash : ∀ c ∈ cs, slash ∉ c := fun c hc => (hcs c hc).noSlash
    have hparts := parts_render hne hslash
    refine ⟨render_head cs, ?_, fun h => 
      absurd h (getLast?_render hne fun c hc => (hcs c hc).solid), ?_, ?_⟩
    · rintro ⟨a, b, hab⟩
      have hsplit : parts (render cs) = parts a ++ [] :: parts b := by
        rw [← hab, List.append_assoc]
        exact (parts_append_slash a (slash :: b)).trans (by rw [parts, if_pos rfl])
      rw [hparts] at hsplit
      obtain ⟨x, l, hl⟩ := List.exists_cons_of_ne_nil (parts_ne_nil a)
      rw [hl] at hsplit
      have hmem : [] ∈ cs := (List.cons.inj hsplit).2 ▸ by simp
      exact (hcs [] hmem).nonempty rfl
    · rw [hparts]
      intro h
      rcases List.mem_cons.mp h with h | h
      · cases h
      · exact (hcs _ h).notDot rfl
    · rw [hparts]
      intro h
      rcases List.mem_cons.mp h with h | h
      · cases h
      · exact (hcs _ h).notDots rfl

theorem normal_render (h : ∀ c ∈ cs, Component c) : Normal (render cs) :=
  normal_iff.mpr ⟨cs, h, rfl⟩

theorem names_render_components (h : ∀ c ∈ cs, Component c) : names (render cs) = cs :=
  names_render_of_ne fun c hc => (h c hc).solid

-- ==== the relative case

/-- The buffer, kept in reverse, reads as the stack, perhaps with one more
slash behind it. -/
def Reads (temp : Path) (cs : List Path) : Prop :=
  temp = (render cs).reverse ∨ (cs ≠ [] ∧ temp = slash :: (render cs).reverse)

theorem componentsFrom_eq (path : Path) : ∀ cur : Path, ∃ hd tl, parts path = hd :: tl
    ∧ componentsFrom cur path = (cur.reverse ++ hd) :: tl := by
  induction path with
  | nil =>
    intro cur
    exact ⟨[], [], rfl, by rw [componentsFrom, List.append_nil]⟩
  | cons x path ih =>
    intro cur
    by_cases hx : x = slash
    · obtain ⟨hd, tl, hp, hc⟩ := ih []
      refine ⟨[], parts path, by rw [parts, if_pos hx], ?_⟩
      rw [componentsFrom, if_pos hx, hc, hp, List.append_nil]
      rfl
    · obtain ⟨hd, tl, hp, hc⟩ := ih (x :: cur)
      refine ⟨x :: hd, tl, by rw [parts, if_neg hx, hp], ?_⟩
      rw [componentsFrom, if_neg hx, hc, List.reverse_cons, List.append_assoc]
      rfl

theorem componentsFrom_nil (path : Path) : componentsFrom [] path = parts path := by
  obtain ⟨hd, tl, hp, hc⟩ := componentsFrom_eq path []
  rw [hc, hp]
  rfl

/-- The inner loop of `..` stops at the slash in front of the last
component. -/
theorem popLast_append (hc : slash ∉ c) (rest : Path) :
    popLast (c ++ slash :: rest) = slash :: rest := by
  induction c with
  | nil =>
    cases rest with
    | nil => rfl
    | cons d rest =>
      show popLast (slash :: d :: rest) = _
      rw [popLast, if_pos rfl]
  | cons x c ih =>
    rw [List.mem_cons, not_or] at hc
    have hstep : popLast (x :: (c ++ slash :: rest)) = popLast (c ++ slash :: rest) := by
      cases c with
      | nil =>
        show popLast (x :: slash :: rest) = _
        rw [popLast, if_neg (Ne.symm hc.1)]
        rfl
      | cons y c =>
        show popLast (x :: y :: (c ++ slash :: rest)) = _
        rw [popLast, if_neg (Ne.symm hc.1)]
        rfl
    exact hstep.trans (ih hc.2)

theorem head?_reverse_render (hne : cs ≠ []) (h : ∀ c ∈ cs, Component c) :
    (render cs).reverse.head? ≠ some slash := by
  rw [List.head?_reverse]
  exact getLast?_render hne fun c hc => (h c hc).solid

section

variable (h : Reads temp cs) (hcs : ∀ c ∈ cs, Component c)

include h hcs

/-- `..` -/
theorem Reads.popComponent : Reads (popComponent temp) cs.dropLast := by
  rcases List.eq_nil_or_concat' cs with rfl | ⟨ds, c, rfl⟩
  · obtain rfl : temp = [slash] := h.resolve_right fun hx => hx.1 rfl
    exact .inl rfl
  have hc := hcs c (List.mem_append_right _ (.head _))
  have hne : ds ++ [c] ≠ [] := by simp
  have hrev : (render (ds ++ [c])).reverse = c.reverse ++ slash :: (joinNames ds).reverse := by
    rw [render_concat, List.reverse_append, List.reverse_cons, List.append_assoc]
    rfl
  have hlen : 1 < (render (ds ++ [c])).reverse.length := by
    have hpos := List.length_pos_of_ne_nil hc.nonempty
    rw [hrev, List.length_append, List.length_reverse, List.length_cons]
    omega
  have hpop : Kernel.popComponent temp = slash :: (joinNames ds).reverse := by
    unfold Kernel.popComponent
    rcases h with rfl | ⟨-, rfl⟩
    · rw [if_neg (by omega), if_neg (head?_reverse_render hne hcs), hrev]
      exact popLast_append (by rw [List.mem_reverse]; exact hc.noSlash) _
    · rw [if_neg (by rw [List.length_cons]; omega), List.head?_cons, if_pos rfl, List.tail_cons,
        hrev]
      exact popLast_append (by rw [List.mem_reverse]; exact hc.noSlash) _
  rw [hpop, List.dropLast_concat]
  unfold Reads render
  by_cases hds : ds = []
  · subst hds
    exact .inl rfl
  · rw [if_neg hds]
    exact .inr ⟨hds, rfl⟩

/-- A component, with room for it. -/
theorem Reads.addComponent (hroom : room temp + c.length ≤ 511) (hc : c ≠ []) :
    Reads (addComponent temp c) (cs ++ [c]) := by
  have hpos := List.length_pos_of_ne_nil hc
  -- a slash stands in front of the component, old or new
  have hfront : (if temp.head? = some slash then temp
      else if temp.length < 511 then slash :: temp else temp) = slash :: (joinNames cs).reverse := by
    by_cases hne : cs = []
    · subst hne
      obtain rfl : temp = [slash] := h.resolve_right fun hx => hx.1 rfl
      rfl
    have hr : (render cs).reverse = (joinNames cs).reverse := by
      unfold render
      rw [if_neg hne]
    rcases h with rfl | ⟨-, rfl⟩
    · have hle := le_room (render cs).reverse
      rw [if_neg (head?_reverse_render hne hcs), if_pos (by omega), hr]
    · rw [List.head?_cons, if_pos rfl, hr]
  have hlen : (slash :: (joinNames cs).reverse).length ≤ room temp := by
    rw [← hfront]
    unfold room
    split
    · exact Nat.le_refl _
    · split
      · exact Nat.le_refl _
      · exact Nat.le_succ _
  refine .inl ?_
  unfold Kernel.addComponent
  dsimp only
  rw [hfront, List.take_of_length_le (by omega), render_concat, List.reverse_append,
    List.reverse_cons, List.append_assoc]
  rfl

/-- One turn of the loop is one step of the stack. -/
theorem Reads.joinComponent (hroom : room temp + c.length ≤ 511) : Reads
    (joinComponent temp c) (descend cs c) := by
  unfold Kernel.joinComponent descend
  by_cases h1 : c = [dot]
  · rw [if_pos h1, if_pos (.inr h1)]
    exact h
  by_cases h2 : c = [dot, dot]
  · subst h2
    rw [if_neg h1, if_pos rfl, if_neg (by decide), if_pos rfl]
    exact h.popComponent hcs
  by_cases h3 : c = []
  · rw [if_neg h1, if_neg h2, if_pos h3, if_pos (.inl h3)]
    exact h
  · rw [if_neg h1, if_neg h2, if_neg h3, if_neg (by simp [h1, h3]), if_neg h2]
    exact h.addComponent hcs hroom h3

end

/-- The loop, as long as the components fit. -/
theorem Reads.foldl (hc : ∀ c ∈ comps, slash ∉ c) : ∀ {temp cs},
    Reads temp cs → (∀ c ∈ cs, Component c) →
    room temp + (comps.map fun c => c.length + 1).sum ≤ 512 →
    Reads (comps.foldl Kernel.joinComponent temp) (comps.foldl descend cs) := by
  induction comps with
  | nil => exact fun h _ _ => h
  | cons c comps ih =>
    intro temp cs h hcs hroom
    rw [List.map_cons, List.sum_cons] at hroom
    have hstep := room_joinComponent temp c
    exact ih (fun d hd => hc d (.tail _ hd)) (h.joinComponent hcs (by omega))
      (descend_components hcs (hc c (.head _))) (by omega)

theorem Reads.ne_nil (h : Reads temp cs) : temp ≠ [] := by
  rcases h with rfl | ⟨-, rfl⟩
  · exact fun hnil => render_ne_nil cs (List.reverse_eq_nil_iff.mp hnil)
  · exact List.cons_ne_nil _ _

/-- The slash at the end goes. -/
theorem Reads.stripSlash (h : Reads temp cs) (hcs : ∀ c ∈ cs, Component c) :
    stripSlash temp.reverse = render cs := by
  unfold Kernel.stripSlash
  by_cases hne : cs = []
  · subst hne
    obtain rfl : temp = [slash] := h.resolve_right fun hx => hx.1 rfl
    rfl
  rcases h with rfl | ⟨-, rfl⟩
  · rw [List.reverse_reverse, if_neg]
    exact fun hx => getLast?_render hne (fun c hc => (hcs c hc).solid) hx.2
  · have hpos := List.length_pos_of_ne_nil (render_ne_nil cs)
    rw [List.reverse_cons, List.reverse_reverse, if_pos, List.dropLast_concat]
    refine ⟨?_, List.getLast?_concat⟩
    rw [List.length_append, List.length_singleton]
    omega

/-- `join_path` of a relative path: the stack goes down the path. -/
theorem joinRelative_render (hcs : ∀ c ∈ cs, Component c)
    (hlen : (render cs).length + path.length + 1 ≤ 511) :
    joinRelative (render cs) path = render ((parts path).foldl descend cs) := by
  have hstart : joinStart (render cs) = render cs := by
    have hreads : Reads (render cs).reverse cs := .inl rfl
    unfold joinStart
    rw [if_pos (render_head cs)]
    have hs := hreads.stripSlash hcs
    rwa [List.reverse_reverse] at hs
  have hsum := length_componentsFrom path []
  rw [componentsFrom_nil, List.length_nil] at hsum
  have hroom := room_le (render cs).reverse
  rw [List.length_reverse] at hroom
  have hreads := Reads.foldl (slash_not_mem_parts path) (.inl rfl : Reads (render cs).reverse cs)
    hcs (by omega)
  unfold joinRelative
  dsimp only
  rw [hstart, List.take_of_length_le (by omega), componentsFrom_nil, if_neg hreads.ne_nil]
  exact hreads.stripSlash (foldl_descend_components (slash_not_mem_parts path) hcs)

/-- From a `normpath`, `join_path` follows a relative path component by
component and ends on a `normpath`. -/
theorem join_relative_descends (hcwd : Normal cwd) (hrel : path.head? ≠ some slash)
    (hlen : cwd.length + path.length + 1 ≤ 511) :
    resolved cwd path = render ((parts path).foldl descend (names cwd))
      ∧ Normal (resolved cwd path) := by
  obtain ⟨cs, hcs, rfl⟩ := normal_iff.mp hcwd
  unfold resolved
  rw [if_neg hrel, joinRelative_render hcs hlen, names_render_components hcs]
  exact ⟨rfl, normal_render (foldl_descend_components (slash_not_mem_parts path) hcs)⟩

/-- `/a/b` and `../../../c/./d//`. -/
theorem join_relative_descends_up :
    resolved [47, 97, 47, 98]
        [46, 46, 47, 46, 46, 47, 46, 46, 47, 99, 47, 46, 47, 100, 47, 47] = [47, 99, 47, 100]
      ∧ Normal (resolved [47, 97, 47, 98]
        [46, 46, 47, 46, 46, 47, 46, 46, 47, 99, 47, 46, 47, 100, 47, 47]) := by
  have hcwd : Normal [47, 97, 47, 98] := ⟨rfl, by decide, by decide, by decide, by decide⟩
  refine (join_relative_descends hcwd (by decide) (by decide)).imp_left fun heq => ?_
  exact heq.trans (by decide)

-- ==== the last component

/-- `split_path` takes a `normpath` apart into a parent and a child, and
`join_path` puts the two together again. -/
theorem split_join_inverse (hp : Normal p) (hroot : p ≠ [slash]) (hlen : p.length < 256) :
    ∃ parent child, splitPath p = pure (parent, child) ∧ Normal parent
      ∧ child ≠ [] ∧ slash ∉ child ∧ resolved parent child = p := by
  obtain ⟨cs, hcs, rfl⟩ := normal_iff.mp hp
  have hne : cs ≠ [] := by
    rintro rfl
    exact hroot rfl
  obtain ⟨ds, c, rfl⟩ := (List.eq_nil_or_concat' cs).resolve_left hne
  have hc := hcs c (List.mem_append_right _ List.mem_cons_self)
  have hds : ∀ d ∈ ds, Component d := fun d hd => hcs d (List.mem_append_left _ hd)
  refine ⟨render ds, c, splitPath_render hc.noSlash, normal_render hds, hc.nonempty, hc.noSlash, ?_⟩
  have hrel : c.head? ≠ some slash := fun hx => hc.noSlash (List.mem_of_head? hx)
  have hshort : (render ds).length + c.length + 1 ≤ 511 := by
    rw [render_concat, List.length_append, List.length_cons] at hlen
    have hr : (render ds).length ≤ (joinNames ds).length + 1 := by
      unfold render
      split
      · exact Nat.le_add_left _ _
      · exact Nat.le_succ _
    omega
  unfold resolved
  rw [if_neg hrel, joinRelative_render hds hshort, parts_of_not_mem hc.noSlash]
  show render (descend ds c) = _
  unfold descend
  rw [if_neg (by simp [hc.nonempty, hc.notDot]), if_neg hc.notDots]

/-- `/a/b`. -/
theorem split_join_inverse_two : ∃ parent child,
    splitPath [47, 97, 47, 98] = pure (parent, child) ∧ Normal parent
      ∧ child ≠ [] ∧ slash ∉ child ∧ resolved parent child = [47, 97, 47, 98] :=
  split_join_inverse ⟨rfl, by decide, by decide, by decide, by decide⟩ (by decide) (by decide)

-- ==== the absolute case

/-- The copy loop keeps what is between the slashes, and one slash for
each. -/
theorem squeezeFrom_eq (r : Path) : ∃ hd tl, parts r = hd :: tl
    ∧ squeezeFrom false r = hd ++ joinNames (tl.filter (· ≠ []))
    ∧ squeezeFrom true r = joinNames ((parts r).filter (· ≠ [])) := by
  induction r with
  | nil => exact ⟨[], [], rfl, rfl, rfl⟩
  | cons x r ih =>
    obtain ⟨hd, tl, hp, hfalse, htrue⟩ := ih
    by_cases hx : x = slash
    · refine ⟨[], parts r, by rw [parts, if_pos hx], ?_, ?_⟩
      · rw [squeezeFrom, if_pos hx, htrue]
        rfl
      · rw [squeezeFrom, if_pos hx, htrue, parts, if_pos hx]
        rfl
    · refine ⟨x :: hd, tl, by rw [parts, if_neg hx, hp], ?_, ?_⟩
      · rw [squeezeFrom, if_neg hx, hfalse]
        rfl
      · rw [squeezeFrom, if_neg hx, hfalse, parts, if_neg hx, hp]
        rfl

/-- The parts of a path that are not empty. -/
def kept (r : Path) : List Path := (parts r).filter (· ≠ [])

theorem mem_kept : c ∈ kept r ↔ c ∈ parts r ∧ c ≠ [] := by
  unfold kept
  rw [List.mem_filter, decide_eq_true_eq]

theorem kept_solid (r : Path) : ∀ c ∈ kept r, c ≠ [] ∧ slash ∉ c := fun c hc =>
  ⟨(mem_kept.mp hc).2, slash_not_mem_parts r c (mem_kept.mp hc).1⟩

theorem kept_eq_nil : kept r = [] ↔ ∀ x ∈ r, x = slash := by
  constructor
  · intro h x hx
    have hmem : x ∈ joinNames (parts r) := joinNames_parts r ▸ List.mem_cons_of_mem _ hx
    obtain ⟨c, hc, hxc⟩ := List.mem_flatMap.mp hmem
    obtain rfl : c = [] := by
      by_contra hne
      have : c ∈ kept r := mem_kept.mpr ⟨hc, hne⟩
      rw [h] at this
      cases this
    exact List.mem_singleton.mp hxc
  · intro h
    refine List.filter_eq_nil_iff.mpr fun c hc hne => of_decide_eq_true hne ?_
    refine List.eq_nil_iff_forall_not_mem.mpr fun x hx => ?_
    have hs := h x (mem_of_mem_parts hc hx)
    exact slash_not_mem_parts r c hc (hs ▸ hx)

theorem stripSlash_of_last (h : p.getLast? ≠ some slash) : stripSlash p = p :=
  if_neg fun hx => h hx.2

/-- `join_path` of an absolute path. A second slash at its start is kept. -/
theorem joinAbsolute_eq (r : Path) : joinAbsolute (slash :: r)
    = if r.head? = some slash ∧ kept r ≠ [] then slash :: render (kept r) else render (kept r) := by
  obtain ⟨hd, tl, hp, hfalse, -⟩ := squeezeFrom_eq r
  unfold joinAbsolute
  rw [List.tail_cons, hfalse]
  by_cases hhd : hd = []
  · subst hhd
    have hkept : kept r = tl.filter (· ≠ []) := by
      unfold kept
      rw [hp]
      rfl
    rw [List.nil_append, ← hkept]
    by_cases hnil : kept r = []
    · rw [hnil, if_neg fun hx => hx.2 rfl]
      rfl
    · have hhead : r.head? = some slash := by
        cases r with
        | nil => exact absurd rfl hnil
        | cons x r =>
          by_cases hx : x = slash
          · rw [hx]
            rfl
          · obtain ⟨hd, tl', -, hcp⟩ := parts_cons_of_ne hx r
            rw [hcp] at hp
            cases hp
      have hr : joinNames (kept r) = render (kept r) := by
        unfold render
        rw [if_neg hnil]
      rw [if_pos ⟨hhead, hnil⟩, hr]
      obtain ⟨y, ys, hys⟩ := List.exists_cons_of_ne_nil (render_ne_nil (kept r))
      refine stripSlash_of_last ?_
      rw [hys, List.getLast?_cons_cons, ← hys]
      exact getLast?_render hnil (kept_solid r)
  · have hkept : kept r = hd :: tl.filter (· ≠ []) := by
      unfold kept
      rw [hp, List.filter_cons_of_pos (by simpa using hhd)]
    have hhead : r.head? ≠ some slash := by
      intro hx
      obtain ⟨r', rfl⟩ : ∃ r', r = slash :: r' := List.head?_eq_some_iff.mp hx
      rw [parts, if_pos rfl] at hp
      exact hhd (List.cons.inj hp).1.symm
    have hr : slash :: (hd ++ joinNames (tl.filter (· ≠ []))) = render (kept r) := by
      rw [hkept]
      rfl
    rw [if_neg fun hx => hhead hx.1, hr]
    exact stripSlash_of_last (getLast?_render (hkept ▸ List.cons_ne_nil _ _) (kept_solid r))

/-- When the result is a `normpath`: the path has no `.` and no `..`, and
does not begin with two slashes unless it is nothing but slashes. -/
theorem normal_joinAbsolute_iff : Normal (joinAbsolute (slash :: r)) ↔
    (r.head? ≠ some slash ∨ ∀ x ∈ r, x = slash) ∧ [dot] ∉ parts r ∧ [dot, dot] ∉ parts r := by
  rw [joinAbsolute_eq, ← kept_eq_nil]
  constructor
  · intro h
    by_cases hbad : r.head? = some slash ∧ kept r ≠ []
    · rw [if_pos hbad] at h
      obtain ⟨y, ys, hys⟩ := List.exists_cons_of_ne_nil (render_ne_nil (kept r))
      have hy : y = slash := by
        have := render_head (kept r)
        rw [hys] at this
        exact Option.some.inj this
      exact absurd ⟨[], ys, by rw [hys, hy]; rfl⟩ h.single
    rw [if_neg hbad] at h
    have hmem : ∀ c ∈ parts r, c ≠ [] → c ∈ parts (render (kept r)) := by
      intro c hc hne
      have hk := mem_kept.mpr ⟨hc, hne⟩
      rw [parts_render (List.ne_nil_of_mem hk) fun d hd => (kept_solid r d hd).2]
      exact .tail _ hk
    refine ⟨?_, fun hd => h.noDot (hmem _ hd (by simp)), fun hd => h.noDots (hmem _ hd (by simp))⟩
    by_cases hs : r.head? = some slash
    · exact .inr (not_not.mp fun hne => hbad ⟨hs, hne⟩)
    · exact .inl hs
  · rintro ⟨hstart, hdot, hdots⟩
    rw [if_neg fun hx => hstart.elim (fun h => h hx.1) fun h => hx.2 h]
    refine normal_render fun c hc => ⟨(kept_solid r c hc).1, (kept_solid r c hc).2, ?_, ?_⟩
    · rintro rfl
      exact hdot (mem_kept.mp hc).1
    · rintro rfl
      exact hdots (mem_kept.mp hc).1

/-- Without dots the stack takes every part that is not empty. -/
theorem foldl_descend_plain (h : ∀ c ∈ comps, c ≠ [dot] ∧ c ≠ [dot, dot]) :
    ∀ cs, comps.foldl descend cs = cs ++ comps.filter (· ≠ []) := by
  induction comps with
  | nil => exact fun cs => (List.append_nil cs).symm
  | cons c comps ih =>
    intro cs
    obtain ⟨h1, h2⟩ := h c (.head _)
    rw [List.foldl_cons, ih fun d hd => h d (.tail _ hd)]
    unfold descend
    by_cases hnil : c = []
    · rw [if_pos (.inl hnil), List.filter_cons_of_neg (by simpa using hnil)]
    · rw [if_neg (by simp [hnil, h1]), if_neg h2, List.filter_cons_of_pos (by simpa using hnil),
        List.append_assoc]
      rfl

/-- `join_path` of `/` and `r` gives a `normpath`, and the same as going
down `r` from the root, exactly if `r` has no `.` and no `..` and does not
begin with a slash, unless it has nothing else. -/
theorem join_absolute_iff (cwd : Path) (hlen : (slash :: r).length < 256) :
    (Normal (resolved cwd (slash :: r))
      ∧ (r ≠ [] → r.head? ≠ some slash → resolved cwd (slash :: r) = resolved [slash] r))
    ↔ (r.head? ≠ some slash ∨ ∀ x ∈ r, x = slash) ∧ [dot] ∉ parts r ∧ [dot, dot] ∉ parts r := by
  have habs : resolved cwd (slash :: r) = joinAbsolute (slash :: r) := if_pos rfl
  rw [habs]
  refine ⟨fun h => normal_joinAbsolute_iff.mp h.1, fun h => ⟨normal_joinAbsolute_iff.mpr h, ?_⟩⟩
  intro _ hrel
  have hplain : ∀ c ∈ parts r, c ≠ [dot] ∧ c ≠ [dot, dot] :=
    fun c hc => ⟨fun he => h.2.1 (he ▸ hc), fun he => h.2.2 (he ▸ hc)⟩
  have hroot : joinRelative (render []) r = render ((parts r).foldl descend []) := by
    refine joinRelative_render nofun ?_
    have : (render []).length = 1 := rfl
    rw [List.length_cons] at hlen
    omega
  have hrelative : resolved [slash] r = joinRelative (render []) r := if_neg hrel
  rw [hrelative, hroot, foldl_descend_plain hplain, joinAbsolute_eq, if_neg fun hx => hrel hx.1]
  rfl

/-- `/usr//lib/`. -/
theorem join_absolute_iff_usr :
    Normal (resolved [] [47, 117, 115, 114, 47, 47, 108, 105, 98, 47])
      ∧ resolved [] [47, 117, 115, 114, 47, 47, 108, 105, 98, 47]
        = resolved [47] [117, 115, 114, 47, 47, 108, 105, 98, 47] := by
  have h := (join_absolute_iff (r := [117, 115, 114, 47, 47, 108, 105, 98, 47]) []
    (by decide)).mpr ⟨.inl (by decide), by decide, by decide⟩
  exact ⟨h.1, h.2 (by decide) (by decide)⟩

/-- `/a/../b` is left as it is, where `a/../b` from the root is `/b`; and
`//a` keeps both slashes. -/
theorem join_absolute_keeps_dots :
    ¬ Normal (resolved [47] [47, 97, 47, 46, 46, 47, 98])
      ∧ resolved [47] [47, 97, 47, 46, 46, 47, 98] ≠ resolved [47] [97, 47, 46, 46, 47, 98]
      ∧ ¬ Normal (resolved [47] [47, 47, 97]) :=
  ⟨fun h => absurd h.noDots (by decide), by decide, fun h => absurd h.single (by decide)⟩

end RojocOS.Kernel
