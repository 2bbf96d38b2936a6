/-
Paths as lists of names, and `search_node` as a walk over them.

# Paths

`search_node` drops one slash and takes everything up to the next one,
so an absolute path is the list of its parts between slashes, the empty
ones included: `/` is one empty part. `names` is that list with the lone
empty part of `/` left out, and a `Normpath` is a path all of whose names
are real ones.

# Lookup

`lookup` follows parts through the slots on disk. It is what
`search_node` computes on a disk that works (`searchNode_lookup`). For
names that are not empty it is a walk in the graph `child`
(`lookup_eq_walk`), which is where the rooted-graph library applies; the
only other thing `search_node` does is give up on a part of 31 bytes or
more.
-/
import RojocOS.Fs.Proofs.Slots
import RojocOS.Lib.Walk
import Mathlib.Data.List.TakeWhile

namespace RojocOS.Fs

open ByteMap Graph Prog

variable {c p last name par : Path} {x : UInt8} {cs : List Path} {disk nd : ByteMap}
  {u v i : Nat} {w w' : FsWorld}

-- ==== paths

/-- The parts of a path between slashes. -/
def parts : Path → List Path
  | [] => [[]]
  | c :: cs =>
      if c = slash then [] :: parts cs
      else match parts cs with
        | [] => [[c]]
        | h :: t => (c :: h) :: t

/-- The parts of an absolute path, as `search_node` visits them. -/
def pathParts : Path → List Path
  | [] => []
  | _ :: cs => parts cs

/-- The names of a normalised path, from the root down. -/
def names (p : Path) : List Path :=
  if p = [slash] then [] else pathParts p

/-- A name of a file or a directory. -/
def Name (c : Path) : Prop := c ≠ [] ∧ slash ∉ c ∧ 0 ∉ c

instance (c : Path) : Decidable (Name c) := inferInstanceAs (Decidable (_ ∧ _))

/-- A normalised absolute path (string.h): it begins with `/`, has no
empty part, and does not end with a slash unless it is `/`. -/
def Normpath (p : Path) : Prop := p.head? = some slash ∧ ∀ c ∈ names p, Name c

instance (p : Path) : Decidable (Normpath p) := inferInstanceAs (Decidable (_ ∧ _))

/-- `q` is `p` or lies below it. -/
def AtOrBelow (p q : Path) : Prop := names p <+: names q

/-- Every name preceded by a slash. -/
def joinNames (cs : List Path) : Path := cs.flatMap fun c => slash :: c

/-- The path with the given names. -/
def render (cs : List Path) : Path := if cs = [] then [slash] else joinNames cs

theorem parts_ne_nil (p : Path) : parts p ≠ [] := by
  cases p with
  | nil => exact List.cons_ne_nil _ _
  | cons c cs =>
    rw [parts]
    split
    · exact List.cons_ne_nil _ _
    · split <;> exact List.cons_ne_nil _ _

theorem parts_cons_of_ne {c : UInt8} (h : c ≠ slash) (cs : Path) :
    ∃ hd tl, parts cs = hd :: tl ∧ parts (c :: cs) = (c :: hd) :: tl := by
  obtain ⟨hd, tl, hp⟩ := List.exists_cons_of_ne_nil (parts_ne_nil cs)
  refine ⟨hd, tl, hp, ?_⟩
  rw [parts, if_neg h, hp]

/-- One turn of the loop of `search_node`: a part, then the rest. -/
theorem parts_eq (p : Path) :
    parts p = p.takeWhile (· != slash) :: pathParts (p.dropWhile (· != slash)) := by
  induction p with
  | nil => rfl
  | cons c cs ih =>
    by_cases hc : c = slash
    · subst hc
      rw [parts, if_pos rfl, List.takeWhile_cons_of_neg (by decide),
        List.dropWhile_cons_of_neg (by decide)]
      rfl
    · have hb : (c != slash) = true := bne_iff_ne.mpr hc
      obtain ⟨hd, tl, hp, hcp⟩ := parts_cons_of_ne hc cs
      rw [hp] at ih
      injection ih with h1 h2
      rw [hcp, List.takeWhile_cons, List.dropWhile_cons, if_pos hb, if_pos hb, h1, h2]

theorem parts_append (h : slash ∉ c) (r : Path) :
    parts (c ++ slash :: r) = c :: parts r := by
  induction c with
  | nil => rw [List.nil_append, parts, if_pos rfl]
  | cons x c ih =>
    rw [List.mem_cons, not_or] at h
    rw [List.cons_append, parts, if_neg (Ne.symm h.1), ih h.2]

theorem parts_of_not_mem (h : slash ∉ c) : parts c = [c] := by
  induction c with
  | nil => rfl
  | cons x c ih =>
    rw [List.mem_cons, not_or] at h
    rw [parts, if_neg (Ne.symm h.1), ih h.2]

theorem slash_not_mem_parts (p : Path) : ∀ c ∈ parts p, slash ∉ c := by
  induction p with
  | nil =>
    intro c hc
    rw [List.mem_singleton.mp hc]
    exact List.not_mem_nil
  | cons x p ih =>
    intro c hc
    by_cases hx : x = slash
    · rw [parts, if_pos hx] at hc
      rcases List.mem_cons.mp hc with rfl | hc
      · exact List.not_mem_nil
      · exact ih c hc
    · obtain ⟨hd, tl, hp, hcp⟩ := parts_cons_of_ne hx p
      rw [hcp] at hc
      rw [hp] at ih
      rcases List.mem_cons.mp hc with rfl | hc
      · rw [List.mem_cons, not_or]
        exact ⟨Ne.symm hx, ih hd (.head _)⟩
      · exact ih c (.tail _ hc)

theorem mem_of_mem_parts (hc : c ∈ parts p) (hx : x ∈ c) : x ∈ p := by
  induction p generalizing c with
  | nil =>
    rw [List.mem_singleton.mp hc] at hx
    exact hx
  | cons y p ih =>
    by_cases hy : y = slash
    · rw [parts, if_pos hy] at hc
      rcases List.mem_cons.mp hc with rfl | hc
      · cases hx
      · exact .tail _ (ih hc hx)
    · obtain ⟨hd, tl, hp, hcp⟩ := parts_cons_of_ne hy p
      rw [hcp] at hc
      rcases List.mem_cons.mp hc with rfl | hc
      · rcases List.mem_cons.mp hx with rfl | hx
        · exact .head _
        · exact .tail _ (ih (hp ▸ List.mem_cons_self) hx)
      · exact .tail _ (ih (hp ▸ List.mem_cons_of_mem _ hc) hx)

theorem mem_of_mem_pathParts (hc : c ∈ pathParts p) (hx : x ∈ c) : x ∈ p := by
  cases p with
  | nil => cases hc
  | cons y p => exact .tail _ (mem_of_mem_parts hc hx)

theorem pathParts_joinNames (h : ∀ c ∈ cs, slash ∉ c) :
    pathParts (joinNames cs) = cs := by
  induction cs with
  | nil => rfl
  | cons c cs ih =>
    have hc := h c (.head _)
    have htl := ih fun d hd => h d (.tail _ hd)
    cases cs with
    | nil =>
      show parts (c ++ []) = [c]
      rw [List.append_nil, parts_of_not_mem hc]
    | cons d ds =>
      show parts (c ++ slash :: (d ++ joinNames ds)) = c :: d :: ds
      rw [parts_append hc]
      exact congrArg (c :: ·) htl

theorem joinNames_parts (p : Path) : joinNames (parts p) = slash :: p := by
  induction p with
  | nil => rfl
  | cons c cs ih =>
    by_cases hc : c = slash
    · rw [parts, if_pos hc, hc]
      show slash :: joinNames (parts cs) = slash :: slash :: cs
      rw [ih]
    · obtain ⟨hd, tl, hp, hcp⟩ := parts_cons_of_ne hc cs
      rw [hp] at ih
      have ih' : hd ++ joinNames tl = cs := List.tail_eq_of_cons_eq ih
      rw [hcp]
      show slash :: c :: (hd ++ joinNames tl) = slash :: c :: cs
      rw [ih']

theorem names_render_of_ne (h : ∀ c ∈ cs, c ≠ [] ∧ slash ∉ c) :
    names (render cs) = cs := by
  have hj := pathParts_joinNames fun c hc => (h c hc).2
  unfold names render
  by_cases hcs : cs = []
  · rw [if_pos hcs, if_pos rfl, hcs]
  · rw [if_neg hcs, if_neg, hj]
    intro hs
    rw [hs] at hj
    have : ([] : Path) ∈ cs := hj ▸ List.mem_singleton.mpr rfl
    exact (h [] this).1 rfl

theorem names_render (h : ∀ c ∈ cs, Name c) : names (render cs) = cs :=
  names_render_of_ne fun c hc => ⟨(h c hc).1, (h c hc).2.1⟩

theorem Normpath.render_names (h : Normpath p) : render (names p) = p := by
  obtain ⟨hhd, -⟩ := h
  unfold names render
  by_cases hp : p = [slash]
  · rw [if_pos hp, if_pos rfl, hp]
  · rw [if_neg hp]
    cases p with
    | nil => cases hhd
    | cons c cs =>
      injection hhd with hc
      rw [show pathParts (c :: cs) = parts cs from rfl, if_neg (parts_ne_nil cs),
        joinNames_parts, hc]

theorem render_head (cs : List Path) : (render cs).head? = some slash := by
  cases cs with
  | nil => rfl
  | cons c cs => rfl

-- ==== split_path

/-- The last slash splits the path. -/
theorem splitPath_eq (pre : Path) (h : slash ∉ last) :
    splitPath (pre ++ slash :: last)
      = pure (if pre = [] then [slash] else pre, last) := by
  have hno : ∀ k, (last.zipIdx k).filter (fun c => c.1 == slash) = [] := by
    intro k
    apply List.filter_eq_nil_iff.mpr
    rintro ⟨c, i⟩ hc hs
    have hmem := List.fst_mem_of_mem_zipIdx hc
    rw [beq_iff_eq] at hs
    exact h (hs ▸ hmem)
  have hlast : ((pre ++ slash :: last).zipIdx.filter fun c => c.1 == slash).getLast?
      = some (slash, pre.length) := by
    rw [List.zipIdx_append, List.zipIdx_cons, List.filter_append, List.filter_cons,
      if_pos (by rfl), hno, List.getLast?_append, Nat.zero_add]
    rfl
  unfold splitPath
  rw [hlast]
  cases pre with
  | nil => rfl
  | cons c cs =>
    simp

/-- A path without a slash fails the assertion. -/
theorem splitPath_of_not_mem (h : slash ∉ p) : splitPath p = Prog.stop .panic := by
  have hno : p.zipIdx.filter (fun c => c.1 == slash) = [] := by
    apply List.filter_eq_nil_iff.mpr
    rintro ⟨c, i⟩ hc hs
    rw [beq_iff_eq] at hs
    exact h (hs ▸ List.fst_mem_of_mem_zipIdx hc)
  unfold splitPath
  rw [hno]
  rfl

theorem exists_last_slash (h : slash ∈ p) :
    ∃ pre last, p = pre ++ slash :: last ∧ slash ∉ last := by
  obtain ⟨as, bs, hr, hno⟩ := List.eq_append_cons_of_mem (List.mem_reverse.mpr h)
  refine ⟨bs.reverse, as.reverse, ?_, by rwa [List.mem_reverse]⟩
  have := congrArg List.reverse hr
  rw [List.reverse_reverse, List.reverse_append, List.reverse_cons,
    List.append_assoc] at this
  exact this

theorem parts_append_slash (pre r : Path) :
    parts (pre ++ slash :: r) = parts pre ++ parts r := by
  induction pre with
  | nil => exact parts_append List.not_mem_nil r
  | cons c cs ih =>
    by_cases hc : c = slash
    · rw [List.cons_append, parts, if_pos hc, ih, parts, if_pos hc]
      rfl
    · obtain ⟨hd, tl, hp, hcp⟩ := parts_cons_of_ne hc cs
      rw [hp] at ih
      rw [List.cons_append, parts, if_neg hc, ih, hcp]
      rfl

/-- What comes after the last slash. -/
def lastPart (p : Path) : Path := (parts p).getLastD []

/-- `split_path` cuts the last part off. -/
theorem splitPath_last (h : splitPath p = pure (par, name)) :
    name = lastPart p ∧ (∀ x ∈ par, x ∈ p) ∧ (∀ x ∈ name, x ∈ p)
      ∧ par.head? = p.head? := by
  by_cases hs : slash ∈ p
  · obtain ⟨pre, last, rfl, hno⟩ := exists_last_slash hs
    rw [splitPath_eq pre hno] at h
    obtain ⟨rfl, rfl⟩ := Prod.mk.inj (pure_inj blank h)
    refine ⟨?_, ?_, ?_, ?_⟩
    · unfold lastPart
      rw [parts_append_slash, parts_of_not_mem hno, List.getLastD_concat]
    · intro x hx
      split at hx
      · rw [List.mem_singleton.mp hx]
        exact hs
      · exact List.mem_append_left _ hx
    · exact fun x hx => List.mem_append_right _ (.tail _ hx)
    · cases pre with
      | nil => rfl
      | cons c cs => rfl
  · rw [splitPath_of_not_mem hs] at h
    exact absurd (congrFun h blank) (by intro hc; cases hc)

/-- The parent and the last name of a normalised path. -/
theorem splitPath_render (hc : slash ∉ c) :
    splitPath (render (cs ++ [c])) = pure (render cs, c) := by
  have hr : render (cs ++ [c]) = joinNames cs ++ slash :: c := by
    unfold render joinNames
    rw [if_neg (by simp), List.flatMap_append]
    simp
  rw [hr, splitPath_eq _ hc]
  cases cs with
  | nil => rfl
  | cons d ds => rfl

theorem splitPath_normpath (hp : Normpath p)
    (hn : names p = cs ++ [c]) : splitPath p = pure (render cs, c) := by
  have hc : Name c := hp.2 c (by rw [hn]; simp)
  rw [← hp.render_names, hn, splitPath_render hc.2.1]

/-- The names in front of the last one, as a path. -/
theorem names_parent (hp : Normpath p)
    (hn : names p = cs ++ [c]) : names (render cs) = cs := by
  apply names_render
  intro d hd
  exact hp.2 d (by rw [hn]; exact List.mem_append_left _ hd)

-- ==== lookup

/-- Where `follow_node` goes from node `u`. -/
def edge (disk : ByteMap) (u : Nat) (name : Path) : Option Nat :=
  (findEdge (nodeAt disk u) name).map (Node.childIndex (nodeAt disk u))

/-- Where the parts of a path lead from node `u`. -/
def lookup (disk : ByteMap) (u : Nat) : List Path → Except Stop Nat
  | [] => .ok u
  | c :: cs =>
      if 31 ≤ c.length then .error (.err (-enametoolong))
      else match edge disk u c with
        | none => .error (.err (-enoent))
        | some v => lookup disk v cs

theorem edge_lt (h : edge disk u c = some v) : v < 2 ^ 32 := by
  obtain ⟨i, -, rfl⟩ := Option.map_eq_some_iff.mp h
  exact childIndex_lt _ i

variable {E : FsEnv}

/-- One step of `search_node`: along the edge, or the disk's error. -/
theorem followNode_outcome (E : FsEnv) (u : Nat) (c : Path) (w : FsWorld) :
    followNode E fsdesc (nodeAt w.disk u) c w
      = (match edge w.disk u c with
        | none => (.error (.err (-enoent)), w)
        | some v => (.ok (v, nodeAt w.disk v), { w with io := w.io + 1 }))
    ∨ ¬ E.Reliable ∧ followNode E fsdesc (nodeAt w.disk u) c w
      = (.error (.err (-eio)), { w with io := w.io + 1 }) := by
  unfold followNode edge
  cases findEdge (nodeAt w.disk u) c with
  | none => exact .inl rfl
  | some i =>
    rcases fsdr_node_outcome (childIndex_lt (nodeAt w.disk u) i) w with h | ⟨hE, h⟩
    · exact .inl ((bind_of_ok h).trans rfl)
    · exact .inr ⟨hE, bind_of_error h⟩

theorem followNode_edge (hE : E.Reliable) (u : Nat) (c : Path) (w : FsWorld) :
    followNode E fsdesc (nodeAt w.disk u) c w
      = match edge w.disk u c with
        | none => (.error (.err (-enoent)), w)
        | some v => (.ok (v, nodeAt w.disk v), { w with io := w.io + 1 }) :=
  (followNode_outcome E u c w).resolve_right fun h => h.1 hE

/-- What `search_node` hands back for a lookup. -/
def found (disk : ByteMap) (r : Except Stop Nat) : Except Stop (Nat × ByteMap) :=
  r.map fun v => (v, nodeAt disk v)

/-- The loop of `search_node`, entered in front of a slash. -/
theorem searchFrom_lookup (E : FsEnv) (fuel : Nat) :
    ∀ (p : Path) (u : Nat) (w : FsWorld), p.length ≤ fuel →
      (p = [] ∨ p.head? = some slash) →
      ∃ n, searchFrom E fsdesc fuel p u (nodeAt w.disk u) w
          = (found w.disk (lookup w.disk u (pathParts p)), { w with io := n })
        ∨ ¬ E.Reliable ∧ searchFrom E fsdesc fuel p u (nodeAt w.disk u) w
          = (.error (.err (-eio)), { w with io := n }) := by
  induction fuel with
  | zero =>
    intro p u w hf _
    cases List.eq_nil_of_length_eq_zero (Nat.le_zero.mp hf)
    exact ⟨w.io, .inl rfl⟩
  | succ fuel ih =>
    intro p u w hf hp
    rcases p with _ | ⟨c, cs⟩
    · exact ⟨w.io, .inl rfl⟩
    · have hc : c = slash := by
        rcases hp with hp | hp
        · cases hp
        · exact Option.some.inj hp
      subst hc
      have hrest : (cs.dropWhile (· != slash)).length ≤ fuel :=
        Nat.le_trans (List.dropWhile_sublist _).length_le (Nat.le_of_succ_le_succ hf)
      have hhead : cs.dropWhile (· != slash) = []
          ∨ (cs.dropWhile (· != slash)).head? = some slash := by
        cases hd : cs.dropWhile (· != slash) with
        | nil => exact .inl rfl
        | cons x xs =>
          right
          have hx := List.head?_dropWhile_not (· != slash) cs
          rw [hd] at hx
          simpa using hx
      show ∃ n, searchFrom E fsdesc (fuel + 1) (slash :: cs) u (nodeAt w.disk u) w
          = (found w.disk (lookup w.disk u (parts cs)), { w with io := n })
        ∨ ¬ E.Reliable ∧ searchFrom E fsdesc (fuel + 1) (slash :: cs) u (nodeAt w.disk u) w
          = (.error (.err (-eio)), { w with io := n })
      rw [parts_eq cs]
      unfold searchFrom lookup
      rw [if_pos rfl]
      by_cases hlen : 31 ≤ (cs.takeWhile (· != slash)).length
      · rw [if_pos hlen, bind_of_error (failIf_of hlen)]
        exact ⟨w.io, .inl rfl⟩
      · rw [if_neg hlen, failIf_bind hlen]
        rcases followNode_outcome E u (cs.takeWhile (· != slash)) w with hfol | ⟨hE, hfol⟩
        · cases he : edge w.disk u (cs.takeWhile (· != slash)) with
          | none =>
            rw [he] at hfol
            rw [bind_of_error hfol]
            exact ⟨w.io, .inl rfl⟩
          | some v =>
            rw [he] at hfol
            rw [bind_of_ok hfol]
            exact ih _ v { w with io := w.io + 1 } hrest hhead
        · rw [bind_of_error hfol]
          exact ⟨w.io + 1, .inr ⟨hE, rfl⟩⟩

/-- `search_node` is a lookup, or the disk's error. -/
theorem searchNode_outcome (E : FsEnv) (hp : p.head? = some slash) (w : FsWorld) :
    ∃ n, searchNode E fsdesc p w
        = (found w.disk (lookup w.disk 0 (pathParts p)), { w with io := n })
      ∨ ¬ E.Reliable ∧ searchNode E fsdesc p w
        = (.error (.err (-eio)), { w with io := n }) := by
  unfold searchNode
  rw [assert_bind hp]
  have hroot := fsdr_node_outcome (E := E) (u := 0) (by decide) w
  rw [Nat.zero_mul, Nat.add_zero] at hroot
  rcases hroot with hroot | ⟨hE, hroot⟩
  · rw [bind_of_ok hroot]
    exact searchFrom_lookup E p.length p 0 { w with io := w.io + 1 } (Nat.le_refl _) (.inr hp)
  · rw [bind_of_error hroot]
    exact ⟨w.io + 1, .inr ⟨hE, rfl⟩⟩

theorem searchNode_lookup (hE : E.Reliable) (hp : p.head? = some slash) (w : FsWorld) :
    ∃ n, searchNode E fsdesc p w
      = (found w.disk (lookup w.disk 0 (pathParts p)), { w with io := n }) := by
  obtain ⟨n, h | ⟨hno, -⟩⟩ := searchNode_outcome E hp w
  · exact ⟨n, h⟩
  · exact absurd hE hno

/-- A search that returns found the node by lookup. -/
theorem searchNode_ok (hE : E.Reliable)
    (h : searchNode E fsdesc p w = (.ok (u, nd), w')) :
    p.head? = some slash ∧ lookup w.disk 0 (pathParts p) = .ok u
      ∧ nd = nodeAt w.disk u ∧ ∃ n, w' = { w with io := n } := by
  have hp : p.head? = some slash := by
    obtain ⟨_, s1, h1, -⟩ := bind_ok.mp h
    exact (assert_ok.mp h1).1
  obtain ⟨n, hs⟩ := searchNode_lookup hE hp w
  rw [hs] at h
  cases hl : lookup w.disk 0 (pathParts p) with
  | error e =>
    rw [hl] at h
    cases h
  | ok v =>
    rw [hl] at h
    cases h
    exact ⟨hp, rfl, rfl, n, rfl⟩

/-- `fs_getattr` reads the value of the node found. -/
theorem fsGetattr_lookup (hE : E.Reliable) (hp : p.head? = some slash) (w : FsWorld) :
    (fsGetattr E fsdesc p w).1
      = (lookup w.disk 0 (pathParts p)).map fun v => Node.value (nodeAt w.disk v) := by
  obtain ⟨n, hs⟩ := searchNode_lookup hE hp w
  unfold fsGetattr
  cases hl : lookup w.disk 0 (pathParts p) with
  | error e =>
    rw [hl] at hs
    rw [bind_of_error hs]
    rfl
  | ok v =>
    rw [hl] at hs
    rw [bind_of_ok hs]
    rfl

-- ==== lookup as a walk

/-- The names `search_node` does not give up on. -/
def shortName (c : Path) : Bool := decide (c.length < 31)

/-- A name a slot can hold. -/
def Label (c : Path) : Prop := c ≠ [] ∧ 0 ∉ c ∧ c.length < 32

instance (c : Path) : Decidable (Label c) := inferInstanceAs (Decidable (_ ∧ _))

/-- The directory graph. -/
def child (disk : ByteMap) (u : Nat) (c : Path) : Option Nat :=
  if Label c then edge disk u c else none

theorem child_of_label (h : Label c) : child disk u c = edge disk u c := if_pos h

/-- A lookup walks the short names and then has arrived, has met a name
that is not there, or gives up on a long one. -/
theorem lookup_eq_walk :
    ∀ {u}, (∀ c ∈ cs, c ≠ [] ∧ 0 ∉ c) →
      lookup disk u cs = match walk (child disk) u (cs.takeWhile shortName) with
        | none => .error (.err (-enoent))
        | some v =>
          if cs.all shortName then .ok v
          else .error (.err (-enametoolong)) := by
  induction cs with
  | nil => exact fun _ => rfl
  | cons c cs ih =>
    intro u h
    obtain ⟨hne, h0⟩ := h c (.head _)
    by_cases hlen : 31 ≤ c.length
    · have hs : shortName c = false := decide_eq_false (by omega)
      rw [lookup, if_pos hlen, List.takeWhile_cons, if_neg (by rw [hs]; decide),
        List.all_cons, hs]
      rfl
    · have hs : shortName c = true := decide_eq_true (by omega)
      rw [lookup, if_neg hlen, List.takeWhile_cons, if_pos hs, walk_cons,
        List.all_cons, hs, Bool.true_and, child_of_label ⟨hne, h0, by omega⟩]
      cases edge disk u c with
      | none => rfl
      | some v => exact ih fun d hd => h d (.tail _ hd)

/-- A lookup that arrives is a walk. -/
theorem walk_of_lookup (h : ∀ c ∈ cs, c ≠ [] ∧ 0 ∉ c) (hl : lookup disk u cs = .ok v) :
    walk (child disk) u cs = some v := by
  rw [lookup_eq_walk h] at hl
  split at hl
  · cases hl
  · next hw =>
      split at hl
      · next hall =>
          cases hl
          rwa [List.takeWhile_eq_self_iff.mpr (List.all_eq_true.mp hall)] at hw
      · cases hl

/-- A walk over short names is a lookup that arrives. -/
theorem lookup_of_walk (h : ∀ c ∈ cs, c ≠ [] ∧ 0 ∉ c) (hs : ∀ c ∈ cs, shortName c = true)
    (hw : walk (child disk) u cs = some v) : lookup disk u cs = .ok v := by
  rw [lookup_eq_walk h, List.takeWhile_eq_self_iff.mpr hs, hw]
  exact if_pos (List.all_eq_true.mpr hs)

/-- `fs_readdir_init` returns the node found and its count. -/
theorem fsReaddirInit_lookup (hE : E.Reliable) (hp : p.head? = some slash) (w : FsWorld) :
    (fsReaddirInit E fsdesc p w).1
      = (lookup w.disk 0 (pathParts p)).map fun v =>
          (v, Node.childrenCount (nodeAt w.disk v)) := by
  obtain ⟨n, hs⟩ := searchNode_lookup hE hp w
  unfold fsReaddirInit
  cases hl : lookup w.disk 0 (pathParts p) with
  | error e =>
    rw [hl] at hs
    rw [bind_of_error hs]
    rfl
  | ok v =>
    rw [hl] at hs
    rw [bind_of_ok hs]
    rfl

/-- The first slot with the name, among all of them. -/
theorem findEdge_eq_some (h0 : 0 ∉ c) (hc : c.length < 32) :
    findEdge nd c = some i
      ↔ i < 32 ∧ Node.slotName nd i = c ∧ ∀ j < i, Node.slotName nd j ≠ c := by
  have hiff : ∀ j, strEq nd (Node.nameAt j) c = true ↔ Node.slotName nd j = c :=
    fun j => strEq_iff h0 hc
  unfold findEdge
  rw [List.find?_range_eq_some]
  simp only [hiff, List.mem_range, Bool.not_eq_true', ← Bool.not_eq_true]
  constructor
  · rintro ⟨h1, h2, h3⟩
    exact ⟨h2, h1, h3⟩
  · rintro ⟨h1, h2, h3⟩
    exact ⟨h2, h1, h3⟩

end RojocOS.Fs
