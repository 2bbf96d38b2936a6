/-
Path resolution.

# The specification

A directory is its used slots: the first `children_count` of them, each a
name and the index of a node (`Child`). Following the names of a path slot
by slot is a relation of its own (`Follows`), which knows nothing of
`strcmp` or of the slots behind the used ones.

# The code

`search_node` looks at all 32 slots of a node, used or not. On a tree whose
names are distinct and whose other slots are zero (`Orderly`) that makes
no difference for a name (`edge_of_child`, `edge_of_missing`): an unused
slot has the empty name. It does make one for `/`, which is one empty part:
the search finds an unused slot, whose index is 0, and so comes back to the
root (`lookup_root`). There always is an unused slot, as there are at most
31 children.
-/
import RojocOS.Fs.Proofs.Create
import Mathlib.Logic.Relation

namespace RojocOS.Fs

open ByteMap

variable {E : FsEnv} {disk : ByteMap} {u v : Nat} {c : Path} {cs pre : List Path}

-- ==== the specification

/-- Node `u` has a child `v` called `c`. -/
def Child (disk : ByteMap) (u : Nat) (c : Path) (v : Nat) : Prop :=
  ∃ i < Node.count (nodeAt disk u), Node.slotName (nodeAt disk u) i = c
    ∧ Node.childIndex (nodeAt disk u) i = v

/-- The names `cs` lead from `u` to `v`. -/
inductive Follows (disk : ByteMap) : Nat → List Path → Nat → Prop
  | nil (u : Nat) : Follows disk u [] u
  | cons {u x v : Nat} {c : Path} {cs : List Path} :
      Child disk u c x → Follows disk x cs v → Follows disk u (c :: cs) v

/-- A directory: distinct names in the used slots, at most 31 of them, and
zeros in all others. -/
structure OrderlyNode (nd : ByteMap) : Prop where
  few : Node.count nd ≤ 31
  nonempty : ∀ i < Node.count nd, Node.slotName nd i ≠ []
  distinct : ∀ i < Node.count nd, ∀ j < i, Node.slotName nd j ≠ Node.slotName nd i
  unused : ∀ i < 32, Node.count nd ≤ i → ZeroSlot nd i

/-- Every node below the root is a directory in this sense. -/
def Orderly (disk : ByteMap) : Prop :=
  ∀ u, Relation.ReflTransGen (fun u v => ∃ c, Child disk u c v) 0 u →
    OrderlyNode (nodeAt disk u)

/-- The trees that runs of the file system keep are of this kind. -/
theorem WellFormed.orderly (h : WellFormed disk) : Orderly disk := by
  have hdir : ∀ u, Relation.ReflTransGen (fun u v => ∃ c, Child disk u c v) 0 u → Dir disk u := by
    intro u hu
    induction hu with
    | refl => exact .inl rfl
    | tail _ hstep ih =>
      obtain ⟨c, i, hi, -, rfl⟩ := hstep
      exact .inr (h.used _ ih i hi)
  intro u hu
  have hd := hdir u hu
  have hcount := count_le_of_once h.used h.once hd
  refine ⟨by omega, fun i hi => (h.name u hd i hi).1, fun i hi j hj heq => ?_,
    fun i hi hle => h.rest u hd i hle hi⟩
  exact absurd (h.distinct u hd j (by omega) i hi heq) (by omega)

-- ==== one step

/-- The slots behind the used ones have the empty name. -/
theorem OrderlyNode.used {nd : ByteMap} (h : OrderlyNode nd) {i : Nat} (hi : i < 32)
    (hne : Node.slotName nd i ≠ []) : i < Node.count nd := by
  by_contra hge
  exact hne (h.unused i hi (Nat.not_lt.mp hge)).name

theorem edge_of_child (h : OrderlyNode (nodeAt disk u)) (hc : 0 ∉ c) (hlen : c.length < 32)
    (hchild : Child disk u c v) : edge disk u c = some v := by
  obtain ⟨i, hi, hname, hv⟩ := hchild
  have hfew := h.few
  have hslot : findEdge (nodeAt disk u) c = some i := by
    refine (findEdge_eq_some hc hlen).mpr ⟨by omega, hname, fun j hj => ?_⟩
    rw [← hname]
    exact h.distinct i hi j hj
  unfold edge
  rw [hslot, Option.map_some, hv]

theorem edge_of_missing (h : OrderlyNode (nodeAt disk u)) (hc : Name c)
    (hlen : c.length < 32) (hno : ¬ ∃ v, Child disk u c v) : edge disk u c = none := by
  cases hedge : edge disk u c with
  | none => rfl
  | some v =>
    obtain ⟨i, hslot, hv⟩ := Option.map_eq_some_iff.mp hedge
    obtain ⟨hi, hname, -⟩ := (findEdge_eq_some hc.2.2 hlen).mp hslot
    have hused := h.used hi (by rw [hname]; exact hc.1)
    exact absurd ⟨v, i, hused, hname, hv⟩ hno

/-- The empty part of `/`: an unused slot, whose index is the root's. -/
theorem lookup_root (h : OrderlyNode (nodeAt disk 0)) : lookup disk 0 [[]] = .ok 0 := by
  have hfew := h.few
  have hslot : findEdge (nodeAt disk 0) [] = some (Node.count (nodeAt disk 0)) := by
    refine (findEdge_eq_some List.not_mem_nil (by decide)).mpr
      ⟨by omega, (h.unused _ (by omega) (Nat.le_refl _)).name, fun j hj => h.nonempty j hj⟩
  have hindex : Node.childIndex (nodeAt disk 0) (Node.count (nodeAt disk 0)) = 0 :=
    (h.unused _ (by omega) (Nat.le_refl _)).index
  have hedge : edge disk 0 [] = some 0 := by
    unfold edge
    rw [hslot, Option.map_some, hindex]
  unfold lookup
  rw [if_neg (by decide), hedge]
  rfl

-- ==== the lookup

/-- A lookup walks along the names that lead somewhere. -/
theorem lookup_follows (rest : List Path) (hw : Orderly disk)
    (hu : Relation.ReflTransGen (fun u v => ∃ c, Child disk u c v) 0 u)
    (hf : Follows disk u pre v) (hpre : ∀ c ∈ pre, 0 ∉ c ∧ c.length < 31) :
    lookup disk u (pre ++ rest) = lookup disk v rest
      ∧ Relation.ReflTransGen (fun u v => ∃ c, Child disk u c v) 0 v := by
  induction hf with
  | nil u => exact ⟨rfl, hu⟩
  | @cons u x v c cs hchild _ ih =>
    obtain ⟨hc, hlen⟩ := hpre c (.head _)
    have hedge := edge_of_child (hw u hu) hc (by omega) hchild
    have hstep : lookup disk u (c :: (cs ++ rest)) = lookup disk x (cs ++ rest) := by
      rw [lookup, if_neg (by omega), hedge]
    obtain ⟨htail, hv⟩ := ih (hu.tail ⟨c, hchild⟩) fun d hd => hpre d (.tail _ hd)
    exact ⟨hstep.trans htail, hv⟩

/-- A lookup comes back with a node or with one of two errors. -/
theorem lookup_outcome (disk : ByteMap) :
    ∀ cs u, (∃ v, lookup disk u cs = .ok v) ∨ lookup disk u cs = .error (.err (-enoent))
      ∨ lookup disk u cs = .error (.err (-enametoolong)) := by
  intro cs
  induction cs with
  | nil => exact fun u => .inl ⟨u, rfl⟩
  | cons c cs ih =>
    intro u
    rw [lookup]
    split
    · exact .inr (.inr rfl)
    · split
      · exact .inr (.inl rfl)
      · exact ih _

/-- The lookup is over the names of the path: `/` has none. -/
theorem lookup_names (hw : Orderly disk) (p : Path) :
    lookup disk 0 (pathParts p) = lookup disk 0 (names p) := by
  unfold names
  split
  · next hroot =>
      subst hroot
      exact lookup_root (hw 0 .refl)
  · rfl

-- ==== search_node

/-- What `search_node` should answer for the names `cs`: the node they lead
to; that the first name not there is not there; that a name is too long,
if it is met before one that is not there. -/
structure Resolved (disk : ByteMap) (cs : List Path) (r : Except Stop (Nat × ByteMap)) :
    Prop where
  arrives : ∀ v, Follows disk 0 cs v → (∀ c ∈ cs, c.length < 31) → r = .ok (v, nodeAt disk v)
  missing : ∀ pre c rest u, cs = pre ++ c :: rest → Follows disk 0 pre u →
    (∀ d ∈ pre, d.length < 31) → c.length < 31 → (¬ ∃ v, Child disk u c v) →
    r = .error (.err (-enoent))
  tooLong : ∀ pre c rest u, cs = pre ++ c :: rest → Follows disk 0 pre u →
    (∀ d ∈ pre, d.length < 31) → 31 ≤ c.length → r = .error (.err (-enametoolong))
  returns : (∃ v, r = .ok (v, nodeAt disk v)) ∨ r = .error (.err (-enoent))
    ∨ r = .error (.err (-enametoolong))

theorem resolved_lookup (hw : Orderly disk) (hcs : ∀ c ∈ cs, Name c) :
    Resolved disk cs (found disk (lookup disk 0 cs)) where
  arrives v hf hshort := by
    have hwalk := (lookup_follows [] hw .refl hf fun c hc =>
      ⟨(hcs c hc).2.2, hshort c hc⟩).1
    rw [List.append_nil] at hwalk
    rw [hwalk]
    rfl
  missing pre c rest u hsplit hf hshort hlen hno := by
    subst hsplit
    have hc : Name c := hcs c (by simp)
    obtain ⟨hwalk, hu⟩ := lookup_follows (c :: rest) hw .refl hf fun d hd =>
      ⟨(hcs d (List.mem_append_left _ hd)).2.2, hshort d hd⟩
    rw [hwalk, lookup, if_neg (by omega), edge_of_missing (hw u hu) hc (by omega) hno]
    rfl
  tooLong pre c rest u hsplit hf hshort hlen := by
    subst hsplit
    obtain ⟨hwalk, -⟩ := lookup_follows (c :: rest) hw .refl hf fun d hd =>
      ⟨(hcs d (List.mem_append_left _ hd)).2.2, hshort d hd⟩
    rw [hwalk, lookup, if_pos hlen]
    rfl
  returns := by
    rcases lookup_outcome disk cs 0 with ⟨v, h⟩ | h | h
    · rw [h]
      exact .inl ⟨v, rfl⟩
    · rw [h]
      exact .inr (.inl rfl)
    · rw [h]
      exact .inr (.inr rfl)

/-- On an orderly tree `search_node` resolves every normalised path as
it should and changes nothing; on a disk that can fail it may come back
with the disk's error instead. -/
theorem search_node_resolves (E : FsEnv) {p : Path} (hp : Normpath p) {w : FsWorld}
    (hw : Orderly w.disk) :
    ∃ n r, searchNode E fsdesc p w = (r, { w with io := n })
      ∧ (Resolved w.disk (names p) r ∨ ¬ E.Reliable ∧ r = .error (.err (-eio))) := by
  obtain ⟨n, hrun | ⟨hE, hrun⟩⟩ := searchNode_outcome E hp.1 w
  · rw [lookup_names hw] at hrun
    exact ⟨n, _, hrun, .inl (resolved_lookup hw hp.2)⟩
  · exact ⟨n, _, hrun, .inr ⟨hE, rfl⟩⟩

/-- A directory with a file in it. -/
def smallTree : FsWorld :=
  (fsTouch plainEnv fsdesc [slash, 97, slash, 98] 1
    (fsTouch plainEnv fsdesc [slash, 97] 0 blank).2).2

/-- `/` is node 0, `/a/b` is node 2, `/a/c` is not there, and a name of 31
bytes is too long. -/
theorem search_node_smallTree :
    Orderly smallTree.disk
      ∧ (∃ n, searchNode plainEnv fsdesc [slash] smallTree
          = (.ok (0, nodeAt smallTree.disk 0), { smallTree with io := n }))
      ∧ (∃ n, searchNode plainEnv fsdesc [slash, 97, slash, 98] smallTree
          = (.ok (2, nodeAt smallTree.disk 2), { smallTree with io := n }))
      ∧ (∃ n, searchNode plainEnv fsdesc [slash, 97, slash, 99] smallTree
          = (.error (.err (-enoent)), { smallTree with io := n }))
      ∧ (∃ n, searchNode plainEnv fsdesc (slash :: List.replicate 31 97) smallTree
          = (.error (.err (-enametoolong)), { smallTree with io := n })) := by
  have hw : Orderly smallTree.disk :=
    (fsTouch_wellFormed plainEnv_reliable
      (fsTouch_wellFormed plainEnv_reliable wellFormed_zero (by decide) 0) (by decide) 1).orderly
  have ha : Child smallTree.disk 0 [97] 1 :=
    ⟨0, by decide +kernel, by decide +kernel, by decide +kernel⟩
  have hb : Child smallTree.disk 1 [98] 2 :=
    ⟨0, by decide +kernel, by decide +kernel, by decide +kernel⟩
  have hone : Node.count (nodeAt smallTree.disk 1) = 1 := by decide +kernel
  have hslot : Node.slotName (nodeAt smallTree.disk 1) 0 = [98] := by decide +kernel
  have key : ∀ {p r}, Normpath p → (∀ r', Resolved smallTree.disk (names p) r' → r' = r) →
      ∃ n, searchNode plainEnv fsdesc p smallTree = (r, { smallTree with io := n }) := by
    intro p r hp hr
    obtain ⟨n, r', hrun, hres | ⟨hno, -⟩⟩ := search_node_resolves plainEnv hp hw
    · rw [hr r' hres] at hrun
      exact ⟨n, hrun⟩
    · exact absurd plainEnv_reliable hno
  refine ⟨hw, key (by decide) fun r h => ?_, key (by decide) fun r h => ?_,
    key (by decide) fun r h => ?_, key (by decide) fun r h => ?_⟩
  · exact h.arrives 0 (.nil 0) (by decide)
  · exact h.arrives 2 (.cons ha (.cons hb (.nil 2))) (by decide)
  · refine h.missing [[97]] [99] [] 1 rfl (.cons ha (.nil 1)) (by decide) (by decide) ?_
    rintro ⟨v, i, hi, hname, -⟩
    obtain rfl : i = 0 := by omega
    rw [hslot] at hname
    exact absurd hname (by decide)
  · exact h.tooLong [] (List.replicate 31 97) [] 0 rfl (.nil 0) (by decide) (by decide)

end RojocOS.Fs
