/-
What no creation by a real name and no removal, clean or not, can break.

`fs_remove` leaves directories in disorder, but it only ever copies slots
that were there, or a slot whose index is the new count 0. So a slot with
an empty name keeps index 0 in every node, and `/` resolves to the root
as long as there is such a slot.

That there is one is a counting argument. Every creation takes a free
node and adds one to one count; every removal subtracts one from a count
and gives at most one node back. So the counts of all nodes together stay
at most the number of nodes in use, which is at most 15, and the slots
from 15 on are never written.
-/
import RojocOS.Fs.Proofs.Listing
import Mathlib.Algebra.BigOperators.Group.Finset.Piecewise
import Mathlib.Algebra.Order.BigOperators.Group.Finset

namespace RojocOS.Fs

open ByteMap

variable {E : FsEnv} {disk : ByteMap} {u i x : Nat} {c p : Path} {cs : List Path}
variable {j k v y : Nat} {disk' : ByteMap} {name par : Path} {w : FsWorld}

/-- The children listed in all the nodes. -/
def totalCount (disk : ByteMap) : Nat :=
  ∑ y ∈ Finset.range 16, Node.count (nodeAt disk y)

/-- The nodes in use, the root apart. -/
def usedNodes (disk : ByteMap) : Finset Nat :=
  (Finset.Ico 1 16).filter fun x => disk (4892 + x) ≠ 0

structure Steady (disk : ByteMap) : Prop where
  blank : ∀ y < 16, ∀ j < 32,
    Node.slotName (nodeAt disk y) j = [] → Node.childIndex (nodeAt disk y) j = 0
  index : ∀ y < 16, ∀ j < 32, Node.childIndex (nodeAt disk y) j < 16
  spare : ∀ y < 16, ∀ j < 32, 15 ≤ j → Node.slotName (nodeAt disk y) j = []
  count : ∀ y < 16, 0 ≤ Node.childrenCount (nodeAt disk y)
  value : ∀ y < 16, Node.value (nodeAt disk y) < 16
  total : totalCount disk ≤ (usedNodes disk).card

-- ==== counting

theorem mem_usedNodes : x ∈ usedNodes disk ↔ 1 ≤ x ∧ x < 16 ∧ disk (4892 + x) ≠ 0 := by
  unfold usedNodes
  rw [Finset.mem_filter, Finset.mem_Ico, and_assoc]

/-- A free node means one node less in use. -/
theorem card_usedNodes_lt (hk : 1 ≤ k ∧ k < 16) (hf : disk (4892 + k) = 0) :
    (usedNodes disk).card < 15 := by
  have hsub : usedNodes disk ⊂ Finset.Ico 1 16 := by
    apply Finset.filter_ssubset.mpr
    exact ⟨k, Finset.mem_Ico.mpr hk, not_not_intro hf⟩
  exact Finset.card_lt_card hsub

theorem count_le_total (hy : y < 16) : Node.count (nodeAt disk y) ≤ totalCount disk :=
  Finset.single_le_sum (f := fun y => Node.count (nodeAt disk y))
    (fun _ _ => Nat.zero_le _) (Finset.mem_range.mpr hy)

/-- One count goes up by one at most, the others do not grow. -/
theorem totalCount_le_succ (hu : u < 16)
    (h : ∀ y < 16, Node.count (nodeAt disk' y)
      ≤ Node.count (nodeAt disk y) + if y = u then 1 else 0) :
    totalCount disk' ≤ totalCount disk + 1 := by
  calc totalCount disk'
      ≤ ∑ y ∈ Finset.range 16, (Node.count (nodeAt disk y) + if y = u then 1 else 0) :=
        Finset.sum_le_sum fun y hy => h y (Finset.mem_range.mp hy)
    _ = totalCount disk + 1 := by
        rw [Finset.sum_add_distrib, Finset.sum_ite_eq', if_pos (Finset.mem_range.mpr hu)]
        rfl

/-- One count goes down by one at least, the others do not grow. -/
theorem succ_le_totalCount (disk' : ByteMap) (hu : u < 16)
    (h : ∀ y < 16, Node.count (nodeAt disk' y) + (if y = u then 1 else 0)
      ≤ Node.count (nodeAt disk y)) :
    totalCount disk' + 1 ≤ totalCount disk := by
  calc totalCount disk' + 1
      = ∑ y ∈ Finset.range 16,
          (Node.count (nodeAt disk' y) + if y = u then 1 else 0) := by
        rw [Finset.sum_add_distrib, Finset.sum_ite_eq', if_pos (Finset.mem_range.mpr hu)]
        rfl
    _ ≤ totalCount disk :=
        Finset.sum_le_sum fun y hy => h y (Finset.mem_range.mp hy)

-- ==== lookups

theorem Steady.edge_lt (h : Steady disk) (hu : u < 16)
    (he : edge disk u c = some v) : v < 16 := by
  obtain ⟨j, hj, rfl⟩ := Option.map_eq_some_iff.mp he
  exact h.index u hu j (List.mem_range.mp (List.mem_of_find?_eq_some hj))

theorem Steady.lookup_lt (h : Steady disk) :
    ∀ {u v}, u < 16 → lookup disk u cs = .ok v → v < 16 := by
  induction cs with
  | nil =>
    intro u v hu hl
    cases hl
    exact hu
  | cons c cs ih =>
    intro u v hu hl
    rw [lookup] at hl
    split at hl
    · cases hl
    · split at hl
      · cases hl
      · next x he => exact ih (h.edge_lt hu he) hl

/-- `/` is the root. -/
theorem Steady.lookup_root (h : Steady disk) :
    lookup disk 0 (pathParts [slash]) = .ok 0 := by
  have hvac : Node.slotName (nodeAt disk 0) 31 = [] :=
    h.spare 0 (by decide) 31 (by decide) (by decide)
  have he : edge disk 0 [] = some 0 := by
    unfold edge
    cases hf : findEdge (nodeAt disk 0) [] with
    | some j =>
      obtain ⟨h32, hname, -⟩ :=
        (findEdge_eq_some List.not_mem_nil (by decide)).mp hf
      exact congrArg some (h.blank 0 (by decide) j h32 hname)
    | none =>
      have hno := List.find?_eq_none.mp hf 31 (List.mem_range.mpr (by decide))
      exact absurd ((strEq_iff List.not_mem_nil (by decide)).mpr hvac) hno
  show lookup disk 0 [[]] = .ok 0
  rw [lookup, if_neg (by decide), he]
  rfl

-- ==== the steps

/-- The invariant reads the nodes and their usage bytes only. -/
theorem Steady.congr (h : Steady disk)
    (hsame : ∀ a, TreeByte a → disk' a = disk a) : Steady disk' := by
  have hnode : ∀ y < 16, nodeAt disk' y = nodeAt disk y :=
    fun y hy => nodeAt_congr fun a h1 h2 => hsame a (.inr (by omega))
  have hused : usedNodes disk' = usedNodes disk := by
    apply Finset.filter_congr
    intro x hx
    have := Finset.mem_Ico.mp hx
    rw [hsame _ (.inl (by omega))]
  have htotal : totalCount disk' = totalCount disk :=
    Finset.sum_congr rfl fun y hy => by rw [hnode y (Finset.mem_range.mp hy)]
  refine ⟨?_, ?_, ?_, ?_, ?_, by rw [htotal, hused]; exact h.total⟩
  · intro y hy
    rw [hnode y hy]
    exact h.blank y hy
  · intro y hy
    rw [hnode y hy]
    exact h.index y hy
  · intro y hy
    rw [hnode y hy]
    exact h.spare y hy
  · intro y hy
    rw [hnode y hy]
    exact h.count y hy
  · intro y hy
    rw [hnode y hy]
    exact h.value y hy

theorem Steady.zero : Steady ByteMap.zero := by
  have hz : ∀ y j, ZeroSlot (nodeAt ByteMap.zero y) j := by
    intro y j b _
    rw [nodeAt_zero]
    rfl
  have hc : ∀ y, Node.count (nodeAt ByteMap.zero y) = 0 := by
    intro y
    rw [nodeAt_zero]
    rfl
  refine ⟨fun y _ j _ _ => (hz y j).index, ?_, fun y _ j _ _ => (hz y j).name, ?_, ?_, ?_⟩
  · intro y _ j _
    rw [(hz y j).index]
    decide
  · intro y _
    rw [nodeAt_zero]
    decide
  · intro y _
    rw [nodeAt_zero]
    decide
  · have : totalCount ByteMap.zero = 0 := Finset.sum_eq_zero fun y _ => hc y
    omega

/-- A slot of a node after a creation: the old one, the new child's, or
zero. -/
theorem touchDisk_slot (ht : TouchOk disk par name u k) (v y : Nat) (hj : j < 32) :
    SameSlot (nodeAt disk y) j (nodeAt (touchDisk disk u k name v) y) j
      ∨ ZeroSlot (nodeAt (touchDisk disk u k name v) y) j
      ∨ (y = u ∧ j = Node.count (nodeAt disk u)
        ∧ SameSlot (addChild (nodeAt disk u) j name k) j
            (nodeAt (touchDisk disk u k name v) y) j) := by
  by_cases hyk : y = k
  · rw [hyk, touchDisk_new]
    exact .inr (.inl (newNode_zero hj))
  · by_cases hyu : y = u
    · subst hyu
      rw [touchDisk_parent ht.index.2 hyk]
      by_cases hjn : j = Node.count (nodeAt disk y)
      · subst hjn
        exact .inr (.inr ⟨rfl, rfl, sameSlot_slice hj⟩)
      · left
        intro b hb
        rw [sameSlot_slice hj b hb]
        exact addChild_other ht.short hjn b hb
    · rw [touchDisk_other ht.index.2 hyk hyu]
      exact .inl fun _ _ => rfl

theorem touchDisk_count (ht : TouchOk disk par name u k)
    (v : Nat) (h0 : 0 ≤ Node.childrenCount (nodeAt disk y)) :
    0 ≤ Node.childrenCount (nodeAt (touchDisk disk u k name v) y)
      ∧ Node.count (nodeAt (touchDisk disk u k name v) y)
        ≤ Node.count (nodeAt disk y) + if y = u then 1 else 0 := by
  by_cases hyk : y = k
  · rw [hyk, touchDisk_new, Node.count, newNode_count]
    exact ⟨Int.le_refl 0, Nat.zero_le _⟩
  · by_cases hyu : y = u
    · subst hyu
      rw [touchDisk_parent ht.index.2 hyk, count_slice, childrenCount_slice, if_pos rfl]
      unfold Node.count
      rw [addChild_count ht.room]
      omega
    · rw [touchDisk_other ht.index.2 hyk hyu, if_neg hyu]
      exact ⟨h0, Nat.le_refl _⟩

theorem usedNodes_touch (ht : TouchOk disk par name u k) :
    (usedNodes (touchDisk disk u k name v)).card = (usedNodes disk).card + 1 := by
  have hins : usedNodes (touchDisk disk u k name v) = insert k (usedNodes disk) := by
    ext x
    rw [Finset.mem_insert, mem_usedNodes, mem_usedNodes]
    exact (touchDisk_used ht).trans or_comm
  rw [hins, Finset.card_insert_of_notMem]
  intro hk
  exact (mem_usedNodes.mp hk).2.2 ht.free

theorem Steady.touch (h : Steady disk)
    (ht : TouchOk disk par name u k) (hu : u < 16) (hn : Label name) (hv : v < 16) :
    Steady (touchDisk disk u k name v) := by
  have hk := ht.index
  -- the slot written is one of the first fifteen
  have hslot : Node.count (nodeAt disk u) < 15 :=
    Nat.lt_of_le_of_lt (Nat.le_trans (count_le_total hu) h.total)
      (card_usedNodes_lt hk ht.free)
  refine ⟨?_, ?_, ?_, fun y hy => (touchDisk_count ht v (h.count y hy)).1, ?_, ?_⟩
  · intro y hy j hj hname
    rcases touchDisk_slot ht v y hj with hs | hz | ⟨rfl, rfl, hs⟩
    · rw [hs.name] at hname
      rw [hs.index]
      exact h.blank y hy j hj hname
    · exact hz.index
    · rw [hs.name, addChild_name hn.2.1 hn.2.2] at hname
      exact absurd hname hn.1
  · intro y hy j hj
    rcases touchDisk_slot ht v y hj with hs | hz | ⟨rfl, rfl, hs⟩
    · rw [hs.index]
      exact h.index y hy j hj
    · rw [hz.index]
      decide
    · rw [hs.index, addChild_index (by omega)]
      exact hk.2
  · intro y hy j hj h15
    rcases touchDisk_slot ht v y hj with hs | hz | ⟨rfl, rfl, hs⟩
    · rw [hs.name]
      exact h.spare y hy j hj h15
    · exact hz.name
    · omega
  · intro y hy
    by_cases hyk : y = k
    · rw [hyk, touchDisk_new, newNode_value (by omega)]
      exact hv
    · rw [touchDisk_value hk.2 hyk hn.2.2]
      exact h.value y hy
  · rw [usedNodes_touch ht]
    have := totalCount_le_succ hu fun y hy => (touchDisk_count ht v (h.count y hy)).2
    have := h.total
    omega

-- --------------------------------------------------------------- removal

section Remove

variable (h : Steady disk) (hu : u < 16) (hi : i < Node.count (nodeAt disk u))
include h hu hi

/-- A slot of a node after a removal: an old slot of the same node, or
one with index 0, or zero. -/
theorem Steady.remove_slot (hi32 : i < 32) (hy : y < 16) (hj : j < 32) :
    (∃ l < 32, (15 ≤ j → 15 ≤ l)
        ∧ SameSlot (nodeAt disk y) l (nodeAt (removeDisk E disk u i) y) j)
      ∨ ZeroSlot (nodeAt (removeDisk E disk u i) y) j
      ∨ (j < 15 ∧ Node.childIndex (nodeAt (removeDisk E disk u i) y) j = 0) := by
  have h15 : Node.count (nodeAt disk u) ≤ 15 :=
    Nat.le_trans (count_le_total hu) (Nat.le_trans h.total (Finset.card_filter_le _ _))
  have h16 := h.index u hu i hi32
  rw [removeDisk_nodes rfl (.inl (Nat.lt_trans (h.value _ h16) (by decide))) h16 hy]
  split
  · refine .inr (.inl fun b hb => ?_)
    rw [slice_of_lt (by omega)]
    rfl
  · split
    · next hyu =>
        subst hyu
        by_cases hji : j = i
        · subst hji
          rcases Nat.lt_or_ge (Node.count (nodeAt disk y)) 2 with h1 | h2
          · have hone : Node.childrenCount (nodeAt disk y) = 1 := by
              unfold Node.count at h1 hi
              omega
            refine .inr (.inr ⟨by omega, ?_⟩)
            rw [(sameSlot_slice hj).index]
            exact dropChild_stack_index hone
          · refine .inl ⟨Node.count (nodeAt disk y) - 2, by omega, by omega, ?_⟩
            intro b hb
            rw [sameSlot_slice hj b hb]
            exact dropChild_moved h2 b hb
        · refine .inl ⟨j, hj, id, fun b hb => ?_⟩
          rw [sameSlot_slice hj b hb]
          exact dropChild_other hji b hb
    · exact .inl ⟨j, hj, id, fun _ _ => rfl⟩

theorem Steady.remove_count (hi32 : i < 32) (hy : y < 16) :
    0 ≤ Node.childrenCount (nodeAt (removeDisk E disk u i) y)
      ∧ Node.count (nodeAt (removeDisk E disk u i) y) + (if y = u then 1 else 0)
        ≤ Node.count (nodeAt disk y) := by
  have h15 : Node.count (nodeAt disk u) ≤ 15 :=
    Nat.le_trans (count_le_total hu) (Nat.le_trans h.total (Finset.card_filter_le _ _))
  have h16 := h.index u hu i hi32
  rw [removeDisk_nodes rfl (.inl (Nat.lt_trans (h.value _ h16) (by decide))) h16 hy]
  split
  · have hz : Node.childrenCount (slice ByteMap.zero 0 1160) = 0 := rfl
    have hc0 : Node.count (slice ByteMap.zero 0 1160) = 0 := rfl
    rw [hz, hc0, Nat.zero_add]
    refine ⟨Int.le_refl 0, ?_⟩
    split
    · next hyu =>
        rw [hyu]
        exact Nat.lt_of_le_of_lt (Nat.zero_le i) hi
    · exact Nat.zero_le _
  · split
    · next hyu =>
        subst hyu
        rw [count_slice, childrenCount_slice]
        unfold Node.count at hi h15 ⊢
        rw [dropChild_count (by omega)]
        omega
    · exact ⟨h.count y hy, Nat.le_refl _⟩

omit hi in
theorem Steady.remove_used (hi32 : i < 32) :
    (usedNodes disk).card ≤ (usedNodes (removeDisk E disk u i)).card + 1 := by
  have h16 := h.index u hu i hi32
  have hoff : OffTree (removedValue E disk u i) := by
    rw [removedValue_eq]
    exact .inl (h.value _ h16)
  have hsub : usedNodes disk
      ⊆ insert (Node.childIndex (nodeAt disk u) i)
          (usedNodes (removeDisk E disk u i)) := by
    intro x hx
    obtain ⟨h1, hx16, hb⟩ := mem_usedNodes.mp hx
    rw [Finset.mem_insert]
    by_cases hxc : x = Node.childIndex (nodeAt disk u) i
    · exact .inl hxc
    · right
      rw [mem_usedNodes, removeDisk_usage rfl h16 hoff hx16 hu, if_neg hxc]
      exact ⟨h1, hx16, hb⟩
  exact Nat.le_trans (Finset.card_le_card hsub) (Finset.card_insert_le _ _)

theorem Steady.remove (hi32 : i < 32) : Steady (removeDisk E disk u i) := by
  have h16 := h.index u hu i hi32
  refine ⟨?_, ?_, ?_, fun y hy => (h.remove_count hu hi hi32 hy).1, ?_, ?_⟩
  · intro y hy j hj hname
    rcases h.remove_slot hu hi hi32 hy hj with
      ⟨l, hl, -, hs⟩ | hz | ⟨-, hidx⟩
    · rw [hs.name] at hname
      rw [hs.index]
      exact h.blank y hy l hl hname
    · exact hz.index
    · exact hidx
  · intro y hy j hj
    rcases h.remove_slot hu hi hi32 hy hj with
      ⟨l, hl, -, hs⟩ | hz | ⟨-, hidx⟩
    · rw [hs.index]
      exact h.index y hy l hl
    · rw [hz.index]
      decide
    · rw [hidx]
      decide
  · intro y hy j hj h15
    rcases h.remove_slot hu hi hi32 hy hj with
      ⟨l, hl, hl15, hs⟩ | hz | ⟨hlt, -⟩
    · rw [hs.name]
      exact h.spare y hy l hl (hl15 h15)
    · exact hz.name
    · omega
  · intro y hy
    rw [removeDisk_nodes rfl (.inl (Nat.lt_trans (h.value _ h16) (by decide))) h16 hy]
    split
    · decide
    · split
      · rw [value_slice, dropChild_value]
        exact h.value u hu
      · exact h.value y hy
  · have h1 := succ_le_totalCount (removeDisk E disk u i) hu
      fun y hy => (h.remove_count hu hi hi32 hy).2
    have h2 := h.remove_used (E := E) hu hi32
    have h3 := h.total
    omega

end Remove

-- ==== the two operations

theorem fsTouch_steady (hE : E.Reliable) (h : Steady w.disk)
    (hp : NamedPath p) (hv : v < 16) : Steady (fsTouch E fsdesc p v w).2.disk := by
  rcases fsTouch_cases hE p v w with ⟨par, name, u, k, hs, ht, -, hw⟩ | ⟨-, hw⟩
  · rw [hw.disk_eq]
    obtain ⟨-, hne, h0⟩ := hp.split hs
    exact h.touch ht (h.lookup_lt (by decide) ht.parent) ⟨hne, h0, ht.short⟩ hv
  · rw [hw.disk_eq]
    exact h

/-- Whatever it finds, and however it leaves the directory. -/
theorem fsRemove_steady (hE : E.Reliable) (h : Steady w.disk)
    (p : Path) (hr : (fsRemove E fsdesc p w).1 ≠ .error .panic) :
    Steady (fsRemove E fsdesc p w).2.disk := by
  rcases fsRemove_cases hE p w with
    ⟨par, name, u, i, hs, hok, ⟨-, -, hw⟩ | ⟨-, hpanic⟩⟩ | ⟨-, hw, -⟩
  · rw [hw.disk_eq]
    exact h.remove (h.lookup_lt (by decide) hok.parent) hok.slot.1 hok.slot.2
  · exact absurd hpanic hr
  · rw [hw.disk_eq]
    exact h

/-- `fs_alloc_inode` hands out one of the inodes 1 to 15 and writes its
table entry only. -/
theorem fsAllocInode_effect (hE : E.Reliable) (w : FsWorld) :
    (∀ a, 4876 ≤ a → (fsAllocInode E fsdesc w).2.disk a = w.disk a)
      ∧ ∀ i, (fsAllocInode E fsdesc w).1 = .ok i → 1 ≤ i ∧ i < 16 := by
  rcases fsAllocInode_cases hE w with ⟨i, io, h1, h16, -, hrun⟩ | ⟨e, io, hrun, -⟩
  · rw [hrun]
    refine ⟨fun a ha => copy_of_not_mem (by unfold entryAddr; omega), fun j hj => ?_⟩
    cases hj
    exact ⟨h1, h16⟩
  · rw [hrun]
    exact ⟨fun _ _ => rfl, fun j hj => by cases hj⟩

end RojocOS.Fs
