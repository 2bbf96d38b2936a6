/-
Rooted graphs whose edges carry labels: following a list of labels, and
what a walk looks like when every vertex has at most one way in.

# Setting

`child u a` is the vertex the edge labelled `a` leads to from `u`, if
there is one. Only the vertices in `S` matter: the root is one, and
edges out of `S` stay in `S`. Vertices outside may have any edges.

# What is proved

- `Arbor.walk_inj`: in an arborescence two walks from the root to one
  vertex are the same list of labels.
- `Graft`: a new leaf hung on an edge that was not there. The result is
  an arborescence again, walks that do not pass the new edge are
  unchanged, and nothing lies below the leaf. Cutting a leaf off is the
  same relation read backwards.
-/
import Mathlib.Data.List.Infix

namespace Graph

variable {V L : Type}
variable {u v : V} {as ps qs : List L}

-- ==== walks

/-- Follow the labels in turn. -/
def walk (child : V → L → Option V) (u : V) : List L → Option V
  | [] => some u
  | a :: as => (child u a).bind fun v => walk child v as

variable {child child' : V → L → Option V}

theorem walk_cons (u : V) (a : L) (as : List L) :
    walk child u (a :: as) = (child u a).bind fun v => walk child v as := rfl

theorem walk_append (u : V) (as bs : List L) :
    walk child u (as ++ bs) = (walk child u as).bind fun v => walk child v bs := by
  induction as generalizing u with
  | nil => rfl
  | cons a as ih =>
    rw [List.cons_append, walk_cons, walk_cons, Option.bind_assoc]
    congr 1
    funext v
    exact ih v

theorem walk_concat (u : V) (as : List L) (a : L) :
    walk child u (as ++ [a]) = (walk child u as).bind fun v => child v a := by
  rw [walk_append]
  congr 1
  funext v
  rw [walk_cons]
  cases child v a <;> rfl

/-- The last edge of a walk. -/
theorem walk_concat_eq_some {a : L} :
    walk child u (as ++ [a]) = some v
      ↔ ∃ x, walk child u as = some x ∧ child x a = some v := by
  rw [walk_concat, Option.bind_eq_some_iff]

-- ==== arborescences

/-- Inside `S` every vertex has at most one way in, and the root has
none. -/
structure Arbor (child : V → L → Option V) (S : V → Prop) (root : V) : Prop where
  root_mem : S root
  closed : ∀ {u a v}, S u → child u a = some v → S v
  no_root : ∀ {u a}, S u → child u a ≠ some root
  parent : ∀ {u u' a a' v}, S u → S u' → child u a = some v →
    child u' a' = some v → u = u' ∧ a = a'

variable {S : V → Prop} {root : V}

theorem Arbor.walk_mem (h : Arbor child S root) :
    ∀ {u v}, S u → walk child u as = some v → S v := by
  induction as with
  | nil =>
    intro u v hu hw
    cases hw
    exact hu
  | cons a as ih =>
    intro u v hu hw
    rw [walk_cons, Option.bind_eq_some_iff] at hw
    obtain ⟨x, hx, hw⟩ := hw
    exact ih (h.closed hu hx) hw

/-- No walk but the empty one comes back to the root. -/
theorem Arbor.walk_root (h : Arbor child S root)
    (hw : walk child root as = some root) : as = [] := by
  rcases List.eq_nil_or_concat as with rfl | ⟨as, a, rfl⟩
  · rfl
  · rw [List.concat_eq_append, walk_concat_eq_some] at hw
    obtain ⟨x, hx, hxa⟩ := hw
    exact absurd hxa (h.no_root (h.walk_mem h.root_mem hx))

/-- Two walks from the root to one vertex are equal: their last edges
are, and so on backwards. -/
theorem Arbor.walk_inj (h : Arbor child S root) :
    ∀ {bs : List L} {v : V}, walk child root as = some v →
      walk child root bs = some v → as = bs := by
  induction as using List.reverseRecOn with
  | nil =>
    intro bs v ha hb
    cases ha
    exact (h.walk_root hb).symm
  | append_singleton as a ih =>
    intro bs v ha hb
    rcases List.eq_nil_or_concat bs with rfl | ⟨bs, b, rfl⟩
    · cases hb
      exact h.walk_root ha
    · rw [List.concat_eq_append] at hb ⊢
      obtain ⟨x, hx, hxa⟩ := walk_concat_eq_some.mp ha
      obtain ⟨y, hy, hyb⟩ := walk_concat_eq_some.mp hb
      obtain ⟨hxy, hab⟩ := h.parent (h.walk_mem h.root_mem hx)
        (h.walk_mem h.root_mem hy) hxa hyb
      subst hxy hab
      rw [ih hx hy]

-- ==== grafts

/-- `child'` is `child` with a new leaf `k` below `p`, under the label
`a`. -/
structure Graft (child child' : V → L → Option V) (S : V → Prop)
    (p : V) (a : L) (k : V) : Prop where
  parent_mem : S p
  fresh : ¬ S k
  absent : child p a = none
  edge : child' p a = some k
  leaf : ∀ b, child' k b = none
  other : ∀ {u b}, S u → ¬ (u = p ∧ b = a) → child' u b = child u b

variable {p k : V} {a : L}

section

variable (g : Graft child child' S p a k)

include g

/-- An edge after the graft is the new one or an old one. -/
theorem Graft.cases {b : L} (hu : S u ∨ u = k) (he : child' u b = some v) :
    (u = p ∧ b = a ∧ v = k) ∨ (S u ∧ child u b = some v) := by
  rcases hu with hu | rfl
  · by_cases hub : u = p ∧ b = a
    · obtain ⟨rfl, rfl⟩ := hub
      rw [g.edge] at he
      cases he
      exact .inl ⟨rfl, rfl, rfl⟩
    · rw [g.other hu hub] at he
      exact .inr ⟨hu, he⟩
  · rw [g.leaf] at he
    cases he

/-- The walk so far is `rs`; what is left does not complete the way
through the new edge. -/
theorem Graft.walk_from (h : Arbor child S root) (hp : walk child root ps = some p)
    (qs : List L) :
    ∀ (rs : List L) {u : V}, walk child root rs = some u →
      ¬ (ps ++ [a] <+: rs ++ qs) → walk child' u qs = walk child u qs := by
  induction qs with
  | nil => exact fun _ _ _ _ => rfl
  | cons b qs ih =>
    intro rs u hrs hno
    have hu : S u := h.walk_mem h.root_mem hrs
    by_cases hub : u = p ∧ b = a
    · obtain ⟨rfl, rfl⟩ := hub
      cases h.walk_inj hp hrs
      exact absurd (List.prefix_append _ _) (by rwa [List.append_cons ps b qs] at hno)
    · rw [walk_cons, walk_cons, g.other hu hub]
      cases hv : child u b with
      | none => rfl
      | some v =>
        refine ih (rs ++ [b]) ?_ (by rwa [← List.append_cons])
        exact walk_concat_eq_some.mpr ⟨u, hrs, hv⟩

/-- Walks that do not go through the new edge are unchanged. -/
theorem Graft.walk_other (h : Arbor child S root)
    (hp : walk child root ps = some p) (hno : ¬ (ps ++ [a] <+: qs)) :
    walk child' root qs = walk child root qs :=
  g.walk_from h hp qs [] rfl hno

/-- A walk that does not end at the leaf does not need the new edge. -/
theorem Graft.walk_cut (h : Arbor child S root) :
    ∀ {u v}, S u → v ≠ k → walk child' u qs = some v → walk child u qs = some v := by
  induction qs with
  | nil => exact fun _ _ hw => hw
  | cons b qs ih =>
    intro u v hu hv hw
    rw [walk_cons, Option.bind_eq_some_iff] at hw ⊢
    obtain ⟨x, hx, hw⟩ := hw
    rcases g.cases (.inl hu) hx with ⟨-, -, rfl⟩ | ⟨-, he⟩
    · cases qs with
      | nil =>
        cases hw
        exact absurd rfl hv
      | cons c qs =>
        rw [walk_cons, g.leaf] at hw
        cases hw
    · exact ⟨x, he, ih (h.closed hu he) hv hw⟩

/-- The walk through the new edge ends at the new leaf. -/
theorem Graft.walk_leaf (h : Arbor child S root)
    (hp : walk child root ps = some p) : walk child' root (ps ++ [a]) = some k := by
  have hsame : walk child' root ps = walk child root ps := by
    apply g.walk_other h hp
    intro hpre
    have := hpre.length_le
    rw [List.length_append, List.length_singleton] at this
    omega
  exact walk_concat_eq_some.mpr ⟨p, by rw [hsame, hp], g.edge⟩

/-- Whatever was reached from the root still is. -/
theorem Graft.walk_old (h : Arbor child S root)
    (hp : walk child root ps = some p) (hq : walk child root qs = some v) :
    walk child' root qs = some v := by
  rw [g.walk_other h hp, hq]
  rintro ⟨ts, rfl⟩
  rw [walk_append, walk_concat, hp] at hq
  simp [g.absent] at hq

end

end Graph
