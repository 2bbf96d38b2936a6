/-
Directories and trees of directories, as invariants of the disk.

# Well-formedness

`WellFormed` is the textbook notion: every directory's first
`children_count` slots hold distinct non-empty names and used nodes, its
other slots are zero, and every used node is referenced exactly once.
`TreeOk` asks less of the other slots. What `fs_remove` leaves in a slot
behind the count is harmless to a lookup when it is empty or repeats a
name the directory still has, since the first slot with a name wins.

# Graph

The lookup graph of a `TreeOk` disk is an arborescence over its
directories (`TreeOk.arbor`), so a node has one path.
-/
import RojocOS.Fs.Proofs.TreeOps
import Mathlib.Data.Finset.Card
import Mathlib.Order.Interval.Finset.Nat

namespace RojocOS.Fs

open ByteMap Graph

variable {i u x : Nat} {c p : Path} {E : FsEnv} {cs : List Path}
  {disk disk' nd nd' : ByteMap}

-- ==== one directory

/-- An empty name and no node. -/
def Vacant (nd : ByteMap) (i : Nat) : Prop :=
  Node.slotName nd i = [] ∧ Node.childIndex nd i = 0

theorem ZeroSlot.vacant (h : ZeroSlot nd i) : Vacant nd i := ⟨h.name, h.index⟩

/-- A directory whose listing and whose lookups agree. -/
structure DirOk (nd : ByteMap) : Prop where
  count : 0 ≤ Node.childrenCount nd ∧ Node.childrenCount nd ≤ 32
  name : ∀ i < Node.count nd, Node.slotName nd i ≠ [] ∧ (Node.slotName nd i).length < 32
  index : ∀ i < Node.count nd, 1 ≤ Node.childIndex nd i ∧ Node.childIndex nd i < 16
  distinct : ∀ i < Node.count nd, ∀ j < Node.count nd,
    Node.slotName nd i = Node.slotName nd j → i = j
  rest : ∀ i, Node.count nd ≤ i → i < 32 →
    Vacant nd i ∨ ∃ j < Node.count nd, Node.slotName nd j = Node.slotName nd i

section DirOk

variable {nd : ByteMap}

theorem DirOk.count_le (h : DirOk nd) : Node.count nd ≤ 32 := by
  have := h.count
  unfold Node.count
  omega

/-- Lookup finds exactly the names listed. -/
theorem DirOk.findEdge (h : DirOk nd) (hc : Label c) :
    findEdge nd c = some i ↔ i < Node.count nd ∧ Node.slotName nd i = c := by
  rw [findEdge_eq_some hc.2.1 hc.2.2]
  constructor
  · rintro ⟨hi, hname, hfirst⟩
    rcases Nat.lt_or_ge i (Node.count nd) with hlt | hge
    · exact ⟨hlt, hname⟩
    · rcases h.rest i hge hi with hv | ⟨j, hj, hsame⟩
      · exact absurd (hname.symm.trans hv.1) hc.1
      · exact absurd (hsame.trans hname) (hfirst j (Nat.lt_of_lt_of_le hj hge))
  · rintro ⟨hi, hname⟩
    refine ⟨Nat.lt_of_lt_of_le hi h.count_le, hname, fun j hj hsame => ?_⟩
    have := h.distinct j (Nat.lt_trans hj hi) i hi (hsame.trans hname.symm)
    exact absurd hj (by omega)

/-- The slots `fs_touch` and `fs_remove` look for are those with the
name. -/
theorem DirOk.holds (h : DirOk nd) (h0 : 0 ∉ c) (hl : c.length < 32)
    (hi : i < Node.count nd) : Holds nd c i ↔ Node.slotName nd i = c := by
  have hidx : Node.childIndex nd i ≠ 0 := by
    have := (h.index i hi).1
    omega
  unfold Holds
  rw [equalToBuffer_iff h0 hl]
  exact ⟨fun hh => hh.2, fun hs => ⟨hidx, hs⟩⟩

/-- Only the names, the indices and the count matter. -/
theorem DirOk.congr (h : DirOk nd) (hc : Node.childrenCount nd' = Node.childrenCount nd)
    (hs : ∀ i < 32, SameSlot nd i nd' i) : DirOk nd' := by
  have hcnt : Node.count nd' = Node.count nd := by
    unfold Node.count
    rw [hc]
  have hle := h.count_le
  have hname : ∀ i < 32, Node.slotName nd' i = Node.slotName nd i :=
    fun i hi => (hs i hi).name
  have hidx : ∀ i < 32, Node.childIndex nd' i = Node.childIndex nd i :=
    fun i hi => (hs i hi).index
  refine ⟨by rw [hc]; exact h.count, ?_, ?_, ?_, ?_⟩
  · intro i hi
    rw [hcnt] at hi
    rw [hname i (by omega)]
    exact h.name i hi
  · intro i hi
    rw [hcnt] at hi
    rw [hidx i (by omega)]
    exact h.index i hi
  · intro i hi j hj
    rw [hcnt] at hi hj
    rw [hname i (by omega), hname j (by omega)]
    exact h.distinct i hi j hj
  · intro i hi h32
    rw [hcnt] at hi
    rw [hcnt, hname i h32]
    rcases h.rest i hi h32 with hv | ⟨j, hj, hsame⟩
    · exact .inl ⟨(hname i h32).trans hv.1, (hidx i h32).trans hv.2⟩
    · exact .inr ⟨j, hj, (hname j (by omega)).trans hsame⟩

/-- A directory without children. -/
theorem DirOk.of_zero (hc : Node.childrenCount nd = 0)
    (hz : ∀ i < 32, ZeroSlot nd i) : DirOk nd := by
  have h0 : Node.count nd = 0 := by
    unfold Node.count
    rw [hc]
    rfl
  refine ⟨by omega, ?_, ?_, ?_, ?_⟩
  · intro i hi
    omega
  · intro i hi
    omega
  · intro i hi
    omega
  · exact fun i _ h32 => .inl (hz i h32).vacant

variable {name : Path} {k : Nat}

/-- A new name in the first slot behind the count. -/
theorem DirOk.add (h : DirOk nd) (hroom : Node.childrenCount nd < 32)
    (hname : Label name) (habs : ∀ i < Node.count nd, Node.slotName nd i ≠ name)
    (hk : 1 ≤ k ∧ k < 16) :
    DirOk (addChild nd (Node.count nd) name k)
      ∧ Node.count (addChild nd (Node.count nd) name k) = Node.count nd + 1 := by
  obtain ⟨hne, h0, hl⟩ := hname
  have hc0 := h.count.1
  have hc : Node.childrenCount (addChild nd (Node.count nd) name k)
      = Node.childrenCount nd + 1 := addChild_count ⟨hc0, hroom⟩
  have hcnt : Node.count (addChild nd (Node.count nd) name k)
      = Node.count nd + 1 := by
    unfold Node.count at hc ⊢
    rw [hc]
    omega
  have hnew : Node.slotName (addChild nd (Node.count nd) name k) (Node.count nd)
      = name := addChild_name h0 hl
  have hnewi : Node.childIndex (addChild nd (Node.count nd) name k) (Node.count nd)
      = k := addChild_index (by omega)
  have hold : ∀ i ≠ Node.count nd, SameSlot nd i (addChild nd (Node.count nd) name k) i :=
    fun i hi => addChild_other hl hi
  refine ⟨⟨by omega, ?_, ?_, ?_, ?_⟩, hcnt⟩
  · intro i hi
    by_cases hin : i = Node.count nd
    · rw [hin, hnew]
      exact ⟨hne, hl⟩
    · rw [(hold i hin).name]
      exact h.name i (by omega)
  · intro i hi
    by_cases hin : i = Node.count nd
    · rw [hin, hnewi]
      exact hk
    · rw [(hold i hin).index]
      exact h.index i (by omega)
  · intro i hi j hj hsame
    by_cases hin : i = Node.count nd
    · by_cases hjn : j = Node.count nd
      · rw [hin, hjn]
      · rw [hin, hnew, (hold j hjn).name] at hsame
        exact absurd hsame.symm (habs j (by omega))
    · rw [(hold i hin).name] at hsame
      by_cases hjn : j = Node.count nd
      · rw [hjn, hnew] at hsame
        exact absurd hsame (habs i (by omega))
      · rw [(hold j hjn).name] at hsame
        exact h.distinct i (by omega) j (by omega) hsame
  · intro i hi h32
    have hin : i ≠ Node.count nd := by omega
    rcases h.rest i (by omega) h32 with hv | ⟨j, hj, hsame⟩
    · exact .inl ⟨(hold i hin).name.trans hv.1, (hold i hin).index.trans hv.2⟩
    · refine .inr ⟨j, by omega, ?_⟩
      rw [(hold i hin).name, (hold j (by omega)).name]
      exact hsame

/-- Removing slot `i` does what it should: it is the last child, what is
moved over it is another child's slot or reads as empty, and no slot
behind the count still has the name. -/
def CleanSlot (E : FsEnv) (nd : ByteMap) (i : Nat) : Prop :=
  i + 1 = Node.count nd
    ∧ (Node.count nd = 1 → E.stack 0 = 0)
    ∧ ∀ j < 32, Node.count nd ≤ j → Node.slotName nd j ≠ Node.slotName nd i

instance (E : FsEnv) (nd : ByteMap) (i : Nat) : Decidable (CleanSlot E nd i) :=
  inferInstanceAs (Decidable (_ ∧ _))

theorem DirOk.drop (h : DirOk nd) (hi : i < Node.count nd) (hclean : CleanSlot E nd i) :
    DirOk (dropChild E nd i) ∧ Node.count (dropChild E nd i) = i := by
  obtain ⟨hlast, hstack, hgone⟩ := hclean
  have hc : Node.childrenCount (dropChild E nd i) = Node.childrenCount nd - 1 :=
    dropChild_count (by have := h.count; unfold Node.count at hi; omega)
  have hcnt : Node.count (dropChild E nd i) = i := by
    unfold Node.count at hc hlast ⊢
    rw [hc]
    omega
  have hold : ∀ j ≠ i, SameSlot nd j (dropChild E nd i) j :=
    fun j hj => dropChild_other hj
  refine ⟨⟨by have := h.count; unfold Node.count at hi; omega, ?_, ?_, ?_, ?_⟩, hcnt⟩
  · intro j hj
    rw [hcnt] at hj
    rw [(hold j (by omega)).name]
    exact h.name j (by omega)
  · intro j hj
    rw [hcnt] at hj
    rw [(hold j (by omega)).index]
    exact h.index j (by omega)
  · intro j hj l hl
    rw [hcnt] at hj hl
    rw [(hold j (by omega)).name, (hold l (by omega)).name]
    exact h.distinct j (by omega) l (by omega)
  · intro j hj h32
    rw [hcnt] at hj
    by_cases hji : j = i
    · subst hji
      rcases Nat.lt_or_ge (Node.count nd) 2 with h1 | h2
      · -- the only child: the slot reads as empty
        have hone : Node.childrenCount nd = 1 := by
          unfold Node.count at hlast h1
          omega
        exact .inl ⟨(dropChild_stack_name hone).mpr (hstack (by omega)),
          dropChild_stack_index hone⟩
      · -- a copy of the child before it
        refine .inr ⟨Node.count nd - 2, by omega, ?_⟩
        rw [(hold _ (by omega)).name, (dropChild_moved h2).name]
    · rcases h.rest j (by omega) h32 with hv | ⟨l, hl, hsame⟩
      · exact .inl ⟨(hold j hji).name.trans hv.1, (hold j hji).index.trans hv.2⟩
      · have hli : l ≠ i := by
          rintro rfl
          exact hgone j h32 (by omega) hsame.symm
        refine .inr ⟨l, by omega, ?_⟩
        rw [(hold l hli).name, (hold j hji).name]
        exact hsame

end DirOk

-- ==== trees

/-- Node `x` is marked used. -/
def Used (disk : ByteMap) (x : Nat) : Prop := 1 ≤ x ∧ x < 16 ∧ disk (4892 + x) ≠ 0

/-- The root, or a used node. -/
def Dir (disk : ByteMap) (u : Nat) : Prop := u = 0 ∨ Used disk u

/-- Slot `r.2` of directory `r.1` is a child, and it is node `x`. -/
def Refers (disk : ByteMap) (r : Nat × Nat) (x : Nat) : Prop :=
  Dir disk r.1 ∧ r.2 < Node.count (nodeAt disk r.1)
    ∧ Node.childIndex (nodeAt disk r.1) r.2 = x

/-- The first `children_count` slots of every directory hold distinct
non-empty names and used nodes, its other slots are zero, and every used
node is referenced exactly once. -/
structure WellFormed (disk : ByteMap) : Prop where
  count : ∀ u, Dir disk u → 0 ≤ Node.childrenCount (nodeAt disk u)
    ∧ Node.childrenCount (nodeAt disk u) ≤ 32
  name : ∀ u, Dir disk u → ∀ i < Node.count (nodeAt disk u),
    Node.slotName (nodeAt disk u) i ≠ []
      ∧ (Node.slotName (nodeAt disk u) i).length < 32
  distinct : ∀ u, Dir disk u → ∀ i < Node.count (nodeAt disk u),
    ∀ j < Node.count (nodeAt disk u),
      Node.slotName (nodeAt disk u) i = Node.slotName (nodeAt disk u) j → i = j
  used : ∀ u, Dir disk u → ∀ i < Node.count (nodeAt disk u),
    Used disk (Node.childIndex (nodeAt disk u) i)
  rest : ∀ u, Dir disk u → ∀ i, Node.count (nodeAt disk u) ≤ i → i < 32 →
    ZeroSlot (nodeAt disk u) i
  once : ∀ x, Used disk x → ∃! r : Nat × Nat, Refers disk r x

/-- The same with any harmless slots behind the count. -/
structure TreeOk (disk : ByteMap) : Prop where
  dir : ∀ u, Dir disk u → DirOk (nodeAt disk u)
  used : ∀ u, Dir disk u → ∀ i < Node.count (nodeAt disk u),
    Used disk (Node.childIndex (nodeAt disk u) i)
  spare : ∀ u, Dir disk u → ∀ i, 15 ≤ i → i < 32 → Vacant (nodeAt disk u) i
  once : ∀ x, Used disk x → ∃! r : Nat × Nat, Refers disk r x

theorem Dir.lt (h : Dir disk u) : u < 16 := by
  rcases h with rfl | h
  · decide
  · exact h.2.1

variable {disk : ByteMap}

/-- One directory has no more children than there are nodes. -/
theorem count_le_of_once (hused : ∀ u, Dir disk u →
      ∀ i < Node.count (nodeAt disk u), Used disk (Node.childIndex (nodeAt disk u) i))
    (honce : ∀ x, Used disk x → ∃! r : Nat × Nat, Refers disk r x)
    (hu : Dir disk u) : Node.count (nodeAt disk u) ≤ 15 := by
  have hcard : (Finset.range (Node.count (nodeAt disk u))).card
      ≤ (Finset.Ico 1 16).card := by
    apply Finset.card_le_card_of_injOn (Node.childIndex (nodeAt disk u))
    · intro i hi
      have := hused u hu i (Finset.mem_range.mp hi)
      exact Finset.mem_coe.mpr (Finset.mem_Ico.mpr ⟨this.1, this.2.1⟩)
    · intro i hi j hj hij
      have hi' := Finset.mem_range.mp hi
      have hj' := Finset.mem_range.mp hj
      have hri : Refers disk (u, i) (Node.childIndex (nodeAt disk u) i) :=
        ⟨hu, hi', rfl⟩
      have hrj : Refers disk (u, j) (Node.childIndex (nodeAt disk u) i) :=
        ⟨hu, hj', hij.symm⟩
      have heq := (honce _ (hused u hu i hi')).unique hri hrj
      exact (Prod.mk.inj heq).2
  simpa using hcard

theorem WellFormed.treeOk (h : WellFormed disk) : TreeOk disk where
  dir := by
    intro u hu
    refine ⟨h.count u hu, h.name u hu, fun i hi => ?_, h.distinct u hu, ?_⟩
    · have := h.used u hu i hi
      exact ⟨this.1, this.2.1⟩
    · exact fun i hi h32 => .inl (h.rest u hu i hi h32).vacant
  used := h.used
  spare := by
    intro u hu i hi h32
    have := count_le_of_once h.used h.once hu
    exact (h.rest u hu i (by omega) h32).vacant
  once := h.once

/-- Only the usage map and the nodes matter. -/
theorem WellFormed.congr (h : WellFormed disk)
    (hd : ∀ a, 4892 ≤ a → disk' a = disk a) : WellFormed disk' := by
  have hnode : ∀ u, nodeAt disk' u = nodeAt disk u :=
    fun u => nodeAt_congr fun a ha _ => hd a (by omega)
  have hused : ∀ x, Used disk' x ↔ Used disk x := by
    intro x
    unfold Used
    rw [hd _ (by omega)]
  have hdir : ∀ u, Dir disk' u ↔ Dir disk u := fun u => or_congr Iff.rfl (hused u)
  have hrefers : ∀ r x, Refers disk' r x ↔ Refers disk r x := by
    intro r x
    unfold Refers
    rw [hdir, hnode]
  constructor
  · simpa only [hnode, hdir] using h.count
  · simpa only [hnode, hdir] using h.name
  · simpa only [hnode, hdir] using h.distinct
  · simpa only [hnode, hdir, hused] using h.used
  · simpa only [hnode, hdir] using h.rest
  · simpa only [hused, hrefers] using h.once

/-- A tree whose slots behind the count are zero is well formed. -/
theorem TreeOk.wellFormed (h : TreeOk disk)
    (hz : ∀ u, Dir disk u → ∀ i, Node.count (nodeAt disk u) ≤ i → i < 32 →
      ZeroSlot (nodeAt disk u) i) : WellFormed disk where
  count := fun u hu => (h.dir u hu).count
  name := fun u hu => (h.dir u hu).name
  distinct := fun u hu => (h.dir u hu).distinct
  used := h.used
  rest := hz
  once := h.once

-- ==== the lookup graph

/-- The edges of a directory are its children. -/
theorem DirOk.child_eq_some (h : DirOk (nodeAt disk u)) :
    child disk u c = some x
      ↔ Label c ∧ ∃ i < Node.count (nodeAt disk u),
          Node.slotName (nodeAt disk u) i = c
            ∧ Node.childIndex (nodeAt disk u) i = x := by
  unfold child
  by_cases hc : Label c
  · rw [if_pos hc, edge, Option.map_eq_some_iff]
    constructor
    · rintro ⟨i, hi, hx⟩
      obtain ⟨h1, h2⟩ := (h.findEdge hc).mp hi
      exact ⟨hc, i, h1, h2, hx⟩
    · rintro ⟨-, i, h1, h2, hx⟩
      exact ⟨i, (h.findEdge hc).mpr ⟨h1, h2⟩, hx⟩
  · rw [if_neg hc]
    exact ⟨fun hn => (nomatch hn), fun hl => absurd hl.1 hc⟩

theorem TreeOk.arbor (h : TreeOk disk) : Arbor (child disk) (Dir disk) 0 where
  root_mem := .inl rfl
  closed := by
    intro u c x hu he
    obtain ⟨-, i, hi, -, rfl⟩ := (h.dir u hu).child_eq_some.mp he
    exact .inr (h.used u hu i hi)
  no_root := by
    intro u c hu he
    obtain ⟨-, i, hi, -, hx⟩ := (h.dir u hu).child_eq_some.mp he
    have := (h.used u hu i hi).1
    omega
  parent := by
    intro u u' c c' x hu hu' he he'
    obtain ⟨-, i, hi, hc, hx⟩ := (h.dir u hu).child_eq_some.mp he
    obtain ⟨-, j, hj, hc', hx'⟩ := (h.dir u' hu').child_eq_some.mp he'
    have hr : Refers disk (u, i) x := ⟨hu, hi, hx⟩
    have hr' : Refers disk (u', j) x := ⟨hu', hj, hx'⟩
    have heq := (h.once x (hx ▸ h.used u hu i hi)).unique hr hr'
    obtain ⟨rfl, rfl⟩ := Prod.mk.inj heq
    exact ⟨rfl, hc.symm.trans hc'⟩

/-- The empty name leads to the root: it is found in a vacant slot. -/
theorem TreeOk.edge_nil (h : TreeOk disk) (hu : Dir disk u) :
    edge disk u [] = some 0 := by
  have hfind : ∀ i, findEdge (nodeAt disk u) [] = some i →
      Node.childIndex (nodeAt disk u) i = 0 := by
    intro i hi
    obtain ⟨h32, hname, -⟩ := (findEdge_eq_some (by simp) (by decide)).mp hi
    rcases Nat.lt_or_ge i (Node.count (nodeAt disk u)) with hlt | hge
    · exact absurd hname ((h.dir u hu).name i hlt).1
    · rcases (h.dir u hu).rest i hge h32 with hv | ⟨j, hj, hsame⟩
      · exact hv.2
      · exact absurd (hsame.trans hname) ((h.dir u hu).name j hj).1
  unfold edge
  cases hf : findEdge (nodeAt disk u) [] with
  | some i => exact congrArg some (hfind i hf)
  | none =>
    have hno := List.find?_eq_none.mp hf 31 (List.mem_range.mpr (by decide))
    have hv := (h.spare u hu 31 (by decide) (by decide)).1
    exact absurd ((strEq_iff (by simp) (by decide)).mpr hv) hno

/-- Lookups from the root end at directories. -/
theorem TreeOk.lookup_dir (h : TreeOk disk) :
    ∀ {u v}, Dir disk u → (∀ c ∈ cs, 0 ∉ c) → lookup disk u cs = .ok v → Dir disk v := by
  induction cs with
  | nil =>
    intro u v hu _ hl
    cases hl
    exact hu
  | cons c cs ih =>
    intro u v hu h0 hl
    rw [lookup] at hl
    split at hl
    · cases hl
    · next hlen =>
        split at hl
        · cases hl
        · next x he =>
            refine ih ?_ (fun d hd => h0 d (.tail _ hd)) hl
            by_cases hc : c = []
            · rw [hc, h.edge_nil hu] at he
              cases he
              exact .inl rfl
            · refine h.arbor.closed (a := c) hu ?_
              rw [child_of_label ⟨hc, h0 c (.head _), by omega⟩]
              exact he

/-- `/` is the root. -/
theorem TreeOk.lookup_root (h : TreeOk disk) :
    lookup disk 0 (pathParts [slash]) = .ok 0 := by
  show lookup disk 0 [[]] = .ok 0
  rw [lookup, if_neg (by decide), h.edge_nil (.inl rfl)]
  rfl

/-- The lookup of a normalised path follows its names. -/
theorem TreeOk.lookup_names (h : TreeOk disk) :
    lookup disk 0 (pathParts p) = lookup disk 0 (names p) := by
  unfold names
  by_cases hp : p = [slash]
  · rw [if_pos hp, hp, h.lookup_root]
    rfl
  · rw [if_neg hp]

end RojocOS.Fs
