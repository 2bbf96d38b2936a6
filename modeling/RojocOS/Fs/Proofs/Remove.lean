/-
Removal: what `fs_remove` does to a tree.

`fs_remove` decrements `children_count` and then moves slot
`children_count - 1` over the removed one, which is the last slot but
one of the old list. So

- the slot of the last child is never cleared, and stays behind the
  count;
- a child that was the last one by name but not the removed one drops
  out of the listing;
- with one child the moved slot is the one before the first, that is,
  stack bytes.

The first half of the file is the one case where this is harmless
(`CleanSlot`): then removal takes a leaf off the lookup graph
(`TreeOk.remove`). The second half shows that on a well-formed disk a
removal that returns is never right (`removal_correct_iff`).
-/
import RojocOS.Fs.Proofs.Create

namespace RojocOS.Fs

open ByteMap Graph

variable {E : FsEnv} {disk : ByteMap} {u i : Nat}
variable {a v x y : Nat} {c p : Path} {cs : List Path} {w w' : FsWorld}

-- ==== the disk after the call

/-- The table entry of inode `v` lies outside the nodes and their usage
map. -/
def OffTree (v : Nat) : Prop := v < 16 ∨ (16 < v ∧ v < 231) ∨ 292 < v

instance (v : Nat) : Decidable (OffTree v) := inferInstanceAs (Decidable (_ ∨ _))

/-- The usage map and the nodes. -/
def TreeByte (a : Nat) : Prop := (4892 ≤ a ∧ a < 4908) ∨ (70428 ≤ a ∧ a < 88988)

theorem unrefDisk_treeByte (hv : OffTree v) (ha : TreeByte a) :
    unrefDisk disk v a = disk a := by
  unfold unrefDisk entryAddr
  unfold OffTree at hv
  unfold TreeByte at ha
  exact copy_of_not_mem (by omega)

theorem removeUnref_treeByte (hv : OffTree (removedValue E disk u i))
    (ha : TreeByte a) : removeUnref E disk u i a = removeSlot E disk u i a := by
  unfold removeUnref
  split
  · exact unrefDisk_treeByte hv ha
  · rfl

theorem removeSlot_parent :
    nodeAt (removeSlot E disk u i) u = slice (dropChild E (nodeAt disk u) i) 0 1160 :=
  nodeAt_copy_same

theorem removeSlot_other (h : y ≠ u) : nodeAt (removeSlot E disk u i) y = nodeAt disk y :=
  nodeAt_copy_other h

/-- The removed node is another one than its parent. -/
theorem removedValue_of_ne (h : Node.childIndex (nodeAt disk u) i ≠ u) :
    removedValue E disk u i
      = Node.value (nodeAt disk (Node.childIndex (nodeAt disk u) i)) := by
  unfold removedValue
  rw [removeSlot_other h]

section Disk

variable {x : Nat} (hx : Node.childIndex (nodeAt disk u) i = x) (h16 : x < 16)
  (hv : OffTree (removedValue E disk u i))
include hx h16

theorem removeDisk_removed : nodeAt (removeDisk E disk u i) x = slice zero 0 1160 := by
  unfold removeDisk
  rw [hx, nodeAt_copy_usage _ _ _ h16, nodeAt_copy_same]

include hv

theorem removeDisk_node (hy : y < 16) (hyx : y ≠ x) :
    nodeAt (removeDisk E disk u i) y = nodeAt (removeSlot E disk u i) y := by
  unfold removeDisk
  rw [hx, nodeAt_copy_usage _ _ _ h16, nodeAt_copy_other hyx]
  apply nodeAt_congr
  intro a h1 h2
  exact removeUnref_treeByte hv (.inr (by omega))

theorem removeDisk_usage (hy : y < 16) (hu : u < 16) :
    removeDisk E disk u i (4892 + y) = if y = x then 0 else disk (4892 + y) := by
  unfold removeDisk
  rw [hx]
  by_cases hyx : y = x
  · rw [if_pos hyx, copy_of_mem (by omega)]
    rfl
  · rw [if_neg hyx, copy_of_not_mem (by omega), copy_of_not_mem (by omega),
      removeUnref_treeByte hv (.inl (by omega))]
    exact copy_of_not_mem (by omega)

end Disk

-- ==== a clean removal

/-- The removed node: no children, every slot zero. -/
theorem clearedNode_dirOk : DirOk (slice zero 0 1160) := by
  apply DirOk.of_zero
  · rfl
  · intro j hj b hb
    rw [slice_of_lt (by omega)]
    rfl

/-- A leaf of the tree: used, and without children. -/
def Leaf (disk : ByteMap) (x : Nat) : Prop := Node.count (nodeAt disk x) = 0

/-- What `TreeOk.remove` assumes of slot `i` of directory `u`. -/
structure CleanRemoval (E : FsEnv) (disk : ByteMap) (u i : Nat) : Prop where
  dir : Dir disk u
  slot : i < Node.count (nodeAt disk u)
  clean : CleanSlot E (nodeAt disk u) i
  leaf : Leaf disk (Node.childIndex (nodeAt disk u) i)
  value : OffTree (Node.value (nodeAt disk (Node.childIndex (nodeAt disk u) i)))

section Clean

variable (h : TreeOk disk) (hr : CleanRemoval E disk u i)
include h hr

theorem CleanRemoval.used : Used disk (Node.childIndex (nodeAt disk u) i) :=
  h.used u hr.dir i hr.slot

omit h in
theorem CleanRemoval.ne : Node.childIndex (nodeAt disk u) i ≠ u := by
  intro he
  have h1 := hr.leaf
  have h2 := hr.slot
  unfold Leaf at h1
  rw [he] at h1
  omega

omit h in
theorem CleanRemoval.off : OffTree (removedValue E disk u i) := by
  rw [removedValue_of_ne hr.ne]
  exact hr.value

theorem CleanRemoval.node_parent :
    nodeAt (removeDisk E disk u i) u = slice (dropChild E (nodeAt disk u) i) 0 1160 := by
  rw [removeDisk_node rfl (hr.used h).2.1 hr.off hr.dir.lt (Ne.symm hr.ne),
    removeSlot_parent]

theorem CleanRemoval.node_other (hy : y < 16) (hyu : y ≠ u)
    (hyx : y ≠ Node.childIndex (nodeAt disk u) i) :
    nodeAt (removeDisk E disk u i) y = nodeAt disk y := by
  rw [removeDisk_node rfl (hr.used h).2.1 hr.off hy hyx, removeSlot_other hyu]

theorem CleanRemoval.used_iff :
    Used (removeDisk E disk u i) y
      ↔ Used disk y ∧ y ≠ Node.childIndex (nodeAt disk u) i := by
  have hlt := (hr.used h).2.1
  constructor
  · rintro ⟨h1, h16, hb⟩
    rw [removeDisk_usage rfl hlt hr.off h16 hr.dir.lt] at hb
    split at hb
    · exact absurd rfl hb
    · next hne => exact ⟨⟨h1, h16, hb⟩, hne⟩
  · rintro ⟨⟨h1, h16, hb⟩, hne⟩
    refine ⟨h1, h16, ?_⟩
    rw [removeDisk_usage rfl hlt hr.off h16 hr.dir.lt, if_neg hne]
    exact hb

theorem CleanRemoval.dir_iff :
    Dir (removeDisk E disk u i) y
      ↔ Dir disk y ∧ y ≠ Node.childIndex (nodeAt disk u) i := by
  have h1 := (hr.used h).1
  unfold Dir
  rw [hr.used_iff h]
  constructor
  · rintro (rfl | ⟨h2, h3⟩)
    · exact ⟨.inl rfl, by omega⟩
    · exact ⟨.inr h2, h3⟩
  · rintro ⟨rfl | h2, h3⟩
    · exact .inl rfl
    · exact .inr ⟨h2, h3⟩

/-- The parent afterwards: the children before the removed one. -/
theorem CleanRemoval.parent_drop :
    DirOk (nodeAt (removeDisk E disk u i) u)
      ∧ Node.count (nodeAt (removeDisk E disk u i) u) = i
      ∧ ∀ j < 32, j ≠ i →
          SameSlot (nodeAt disk u) j (nodeAt (removeDisk E disk u i) u) j := by
  obtain ⟨hd, hc⟩ := (h.dir u hr.dir).drop hr.slot hr.clean
  rw [hr.node_parent h]
  refine ⟨dirOk_slice hd, count_slice.trans hc, fun j hj hji b hb => ?_⟩
  rw [sameSlot_slice hj b hb]
  exact dropChild_other hji b hb

/-- The references afterwards: all but the removed one. -/
theorem CleanRemoval.refers {r : Nat × Nat} :
    Refers (removeDisk E disk u i) r y ↔ Refers disk r y ∧ r ≠ (u, i) := by
  obtain ⟨-, hcnt, hsame⟩ := hr.parent_drop h
  have hle := (h.dir u hr.dir).count_le
  have hlast := hr.clean.1
  obtain ⟨v, j⟩ := r
  unfold Refers
  dsimp only
  rw [hr.dir_iff h]
  constructor
  · rintro ⟨⟨hv, hvx⟩, hj, hy⟩
    by_cases hvu : v = u
    · subst hvu
      rw [hcnt] at hj
      rw [(hsame j (by omega) (by omega)).index] at hy
      refine ⟨⟨hv, by omega, hy⟩, fun he => ?_⟩
      have := (Prod.mk.inj he).2
      omega
    · rw [hr.node_other h hv.lt hvu hvx] at hj hy
      exact ⟨⟨hv, hj, hy⟩, fun he => hvu (Prod.mk.inj he).1⟩
  · rintro ⟨⟨hv, hj, hy⟩, hne⟩
    have hvx : v ≠ Node.childIndex (nodeAt disk u) i := by
      intro he
      have hleaf := hr.leaf
      unfold Leaf at hleaf
      rw [← he] at hleaf
      omega
    refine ⟨⟨hv, hvx⟩, ?_⟩
    by_cases hvu : v = u
    · subst hvu
      have hji : j ≠ i := fun he => hne (by rw [he])
      rw [hcnt, (hsame j (by omega) hji).index]
      exact ⟨by omega, hy⟩
    · rw [hr.node_other h hv.lt hvu hvx]
      exact ⟨hj, hy⟩

/-- A clean removal keeps the tree. -/
theorem TreeOk.remove : TreeOk (removeDisk E disk u i) := by
  obtain ⟨hdir, hcnt, hsame⟩ := hr.parent_drop h
  have hri : Refers disk (u, i) (Node.childIndex (nodeAt disk u) i) :=
    ⟨hr.dir, hr.slot, rfl⟩
  refine ⟨?_, ?_, ?_, ?_⟩
  · intro v hv'
    obtain ⟨hv, hvx⟩ := (hr.dir_iff h).mp hv'
    by_cases hvu : v = u
    · rw [hvu]
      exact hdir
    · rw [hr.node_other h hv.lt hvu hvx]
      exact h.dir v hv
  · intro v hv j hj
    have href : Refers (removeDisk E disk u i) (v, j)
        (Node.childIndex (nodeAt (removeDisk E disk u i) v) j) := ⟨hv, hj, rfl⟩
    obtain ⟨⟨hv', hj', hy⟩, hne⟩ := (hr.refers h).mp href
    rw [hr.used_iff h]
    refine ⟨hy ▸ h.used v hv' j hj', fun hyx => hne ?_⟩
    -- the removed slot was the only reference to the removed node
    exact (h.once _ (hr.used h)).unique ⟨hv', hj', hy.trans hyx⟩ hri
  · intro v hv' j hj h32
    obtain ⟨hv, hvx⟩ := (hr.dir_iff h).mp hv'
    by_cases hvu : v = u
    · subst hvu
      have hcle := count_le_of_once h.used h.once hv
      have hs := hsame j h32 (by have := hr.slot; omega)
      have hvac := h.spare v hv j hj h32
      exact ⟨hs.name.trans hvac.1, hs.index.trans hvac.2⟩
    · rw [hr.node_other h hv.lt hvu hvx]
      exact h.spare v hv j hj h32
  · intro y hy
    obtain ⟨hy, hyx⟩ := (hr.used_iff h).mp hy
    obtain ⟨r, hry, huniq⟩ := h.once y hy
    refine ⟨r, (hr.refers h).mpr ⟨hry, ?_⟩, fun r' hr' => ?_⟩
    · rintro rfl
      exact hyx hry.2.2.symm
    · exact huniq r' ((hr.refers h).mp hr').1

/-- A leaf has no edges. -/
theorem CleanRemoval.leaf_none (b : Path) :
    child disk (Node.childIndex (nodeAt disk u) i) b = none := by
  rw [Option.eq_none_iff_forall_ne_some]
  intro y hy
  obtain ⟨-, j, hj, -⟩ :=
    (h.dir _ (.inr (hr.used h))).child_eq_some.mp hy
  have hleaf := hr.leaf
  unfold Leaf at hleaf
  omega

/-- Read backwards, a clean removal is a graft. -/
theorem TreeOk.remove_graft :
    Graft (child (removeDisk E disk u i)) (child disk)
      (Dir (removeDisk E disk u i)) u (Node.slotName (nodeAt disk u) i)
      (Node.childIndex (nodeAt disk u) i) := by
  obtain ⟨hdir, hcnt, hsame⟩ := hr.parent_drop h
  have hlast := hr.clean.1
  have hle := (h.dir u hr.dir).count_le
  have hname := (h.dir u hr.dir).name i hr.slot
  have hlabel : Label (Node.slotName (nodeAt disk u) i) :=
    ⟨hname.1, zero_not_mem_cstr _ _ _, hname.2⟩
  refine ⟨(hr.dir_iff h).mpr ⟨hr.dir, Ne.symm hr.ne⟩,
    fun hx => ((hr.dir_iff h).mp hx).2 rfl, ?_, ?_, hr.leaf_none h, ?_⟩
  · rw [Option.eq_none_iff_forall_ne_some]
    intro y hy
    obtain ⟨-, j, hj, hc, -⟩ := hdir.child_eq_some.mp hy
    rw [hcnt] at hj
    rw [(hsame j (by omega) (by omega)).name] at hc
    have := (h.dir u hr.dir).distinct j (by omega) i hr.slot hc
    omega
  · exact (h.dir u hr.dir).child_eq_some.mpr ⟨hlabel, i, hr.slot, rfl, rfl⟩
  · intro v b hv' hvb
    obtain ⟨hv, hvx⟩ := (hr.dir_iff h).mp hv'
    by_cases hvu : v = u
    · subst hvu
      apply Option.ext
      intro y
      rw [hdir.child_eq_some, (h.dir v hv).child_eq_some, hcnt]
      constructor
      · rintro ⟨hb, j, hj, hc, hy⟩
        have hji : j ≠ i := by
          rintro rfl
          exact hvb ⟨rfl, hc.symm⟩
        have hs := hsame j (by omega) hji
        exact ⟨hb, j, by omega, hs.name.trans hc, hs.index.trans hy⟩
      · rintro ⟨hb, j, hj, hc, hy⟩
        have hs := hsame j (by omega) (by omega)
        exact ⟨hb, j, by omega, hs.name.symm.trans hc, hs.index.symm.trans hy⟩
    · exact (child_congr (hr.node_other h hv.lt hvu hvx) b).symm

end Clean

-- ==== fs_remove

/-- What a removal of `p` should do, whenever it returns `0`: the tree
stays well formed, `p` is gone, every other path reads as before, and no
byte outside the node's slots is used. -/
def RemovalCorrect (E : FsEnv) (p : Path) (w : FsWorld) : Prop :=
  ∀ w', fsRemove E fsdesc p w = (.ok (), w') →
    WellFormed w'.disk
      ∧ (fsGetattr E fsdesc p w').1 = .error (.err (-enoent))
      ∧ (∀ q, Normpath q → ¬ AtOrBelow p q →
          (fsGetattr E fsdesc q w').1 = (fsGetattr E fsdesc q w).1)
      ∧ ∀ st, fsRemove { E with stack := st } fsdesc p w = fsRemove E fsdesc p w

/-- The calls that never return `0`: on the root, or on a file whose
inode `v` has no reference left. -/
def NeverRemoved (disk : ByteMap) (p : Path) (v : Nat) : Prop :=
  p = [slash] ∨ (v ≠ 0 ∧ OffTree v ∧ Entry.ref (entryAt disk v) = 0)

/-- The node a path names, with its parent and its slot. -/
structure Target (disk : ByteMap) (cs : List Path) (c : Path) (u i x : Nat) : Prop where
  parent : lookup disk 0 cs = .ok u
  dir : Dir disk u
  slot : i < Node.count (nodeAt disk u)
  name : Node.slotName (nodeAt disk u) i = c
  index : Node.childIndex (nodeAt disk u) i = x
  label : Label c

/-- A path other than `/` that is found has such a target. -/
theorem TreeOk.target (h : TreeOk disk) (hp : Normpath p)
    (hne : p ≠ [slash]) (hx : lookup disk 0 (pathParts p) = .ok x) :
    ∃ cs c u i, names p = cs ++ [c] ∧ Target disk cs c u i x := by
  have hnames : names p ≠ [] := by
    unfold names
    rw [if_neg hne]
    cases p with
    | nil => cases hp.1
    | cons a as => exact parts_ne_nil as
  obtain ⟨cs, c, hn⟩ := List.eq_nil_or_concat (names p) |>.resolve_left hnames
  rw [List.concat_eq_append] at hn
  rw [h.lookup_names, hn] at hx
  have hok : ∀ d ∈ cs ++ [c], d ≠ [] ∧ 0 ∉ d := by
    intro d hd
    have := hp.2 d (hn ▸ hd)
    exact ⟨this.1, this.2.2⟩
  have hshort := short_of_lookup hx
  obtain ⟨u, hu, he⟩ := walk_concat_eq_some.mp (walk_of_lookup hok hx)
  have hdir : Dir disk u := h.arbor.walk_mem (.inl rfl) hu
  obtain ⟨hlabel, i, hi, hc, hi'⟩ := (h.dir u hdir).child_eq_some.mp he
  refine ⟨cs, c, u, i, hn, ?_, hdir, hi, hc, hi', hlabel⟩
  exact lookup_of_walk (fun d hd => hok d (List.mem_append_left _ hd))
    (fun d hd => hshort d (List.mem_append_left _ hd)) hu

/-- `fs_remove` works on that slot. -/
theorem Target.unique (h : TreeOk disk) {par name : Path} (hp : Normpath p)
    (hn : names p = cs ++ [c]) {j : Nat}
    (ht : Target disk cs c u i x) (hsplit : splitPath p = pure (par, name))
    (hr : RemoveOk disk par name v j) : v = u ∧ j = i := by
  rw [splitPath_normpath hp hn] at hsplit
  obtain ⟨rfl, rfl⟩ := Prod.mk.inj (Prog.pure_inj blank hsplit)
  have hv : v = u := by
    have hpar := hr.parent
    rw [h.lookup_names, names_parent hp hn, ht.parent] at hpar
    exact (Except.ok.inj hpar).symm
  subst hv
  refine ⟨rfl, (h.dir v ht.dir).distinct j hr.slot.1 i ht.slot ?_⟩
  rw [ht.name]
  exact ((h.dir v ht.dir).holds ht.label.2.1 ht.label.2.2 hr.slot.1).mp hr.holds

theorem Target.removeOk (h : TreeOk disk) (hp : Normpath p) (hn : names p = cs ++ [c])
    (ht : Target disk cs c u i x) :
    splitPath p = pure (render cs, c) ∧ RemoveOk disk (render cs) c u i := by
  have hle := (h.dir u ht.dir).count_le
  refine ⟨splitPath_normpath hp hn, render_head cs, ?_, ⟨ht.slot, by
    have := ht.slot; omega⟩, ?_, ?_⟩
  · rw [h.lookup_names, names_parent hp hn]
    exact ht.parent
  · exact ((h.dir u ht.dir).holds ht.label.2.1 ht.label.2.2 ht.slot).mpr ht.name
  · have := (h.dir u ht.dir).count
    omega

/-- The entry of an inode outside the tree is not in a node. -/
theorem entryAt_removeSlot (hu : u < 16) (hv : OffTree v) :
    entryAt (removeSlot E disk u i) v = entryAt disk v := by
  apply entryAt_congr
  intro a h1 h2
  unfold entryAddr at h1 h2
  unfold OffTree at hv
  exact copy_of_not_mem (by omega)

section Removal

variable (h : WellFormed disk) {x : Nat} (hdir : Dir disk u)
  (hi : i < Node.count (nodeAt disk u))
  (hx : Node.childIndex (nodeAt disk u) i = x) (hleaf : Leaf disk x)
  (hoff : OffTree (Node.value (nodeAt disk x)))
include h hdir hi hx hleaf

omit h hdir in
theorem leaf_ne : x ≠ u := by
  rintro rfl
  unfold Leaf at hleaf
  omega

omit hleaf in
theorem removed_lt : x < 16 := hx ▸ (h.used u hdir i hi).2.1

omit h hdir in
theorem removedValue_leaf : removedValue E disk u i = Node.value (nodeAt disk x) := by
  rw [removedValue_of_ne (hx ▸ leaf_ne hi hx hleaf), hx]

include hoff

/-- The parent a removal leaves on a well-formed disk. -/
theorem removal_parent :
    Dir (removeDisk E disk u i) u
      ∧ nodeAt (removeDisk E disk u i) u
        = slice (dropChild E (nodeAt disk u) i) 0 1160 := by
  have hne := leaf_ne hi hx hleaf
  have h16 := removed_lt h hdir hi hx
  have hv : OffTree (removedValue E disk u i) := by
    rw [removedValue_leaf hi hx hleaf]
    exact hoff
  refine ⟨?_, ?_⟩
  · rcases hdir with h0 | ⟨h1, h2, hb⟩
    · exact .inl h0
    · refine .inr ⟨h1, h2, ?_⟩
      rw [removeDisk_usage hx h16 hv h2 h2, if_neg (Ne.symm hne)]
      exact hb
  · rw [removeDisk_node hx h16 hv hdir.lt (Ne.symm hne), removeSlot_parent]

/-- With two children or more, the slot of the old last child is behind
the count and still holds a name. -/
theorem removal_not_wellFormed (h2 : 2 ≤ Node.count (nodeAt disk u)) :
    ¬ WellFormed (removeDisk E disk u i) := by
  intro hwf
  obtain ⟨hdir', hnode⟩ := removal_parent h hdir hi hx hleaf hoff
  have hc := h.count u hdir
  have hle : Node.count (nodeAt disk u) ≤ 32 := (h.treeOk.dir u hdir).count_le
  have hcnt : Node.count (dropChild E (nodeAt disk u) i)
      = Node.count (nodeAt disk u) - 1 := by
    unfold Node.count at h2 ⊢
    rw [dropChild_count (by omega)]
    omega
  have hz := hwf.rest u hdir' (Node.count (nodeAt disk u) - 1)
    (by rw [hnode, count_slice, hcnt]) (by omega)
  rw [hnode] at hz
  have hname := (sameSlot_slice (by omega)).name.symm.trans hz.name
  by_cases hil : Node.count (nodeAt disk u) - 1 = i
  · rw [hil, (dropChild_moved h2).name] at hname
    exact (h.name u hdir _ (by omega)).1 hname
  · rw [(dropChild_other hil).name] at hname
    exact (h.name u hdir _ (by omega)).1 hname

/-- With one child, the slot holds whatever the stack held. -/
theorem removal_reads_stack (h1 : Node.count (nodeAt disk u) = 1) :
    nodeAt (removeDisk E disk u i) u 8 = E.stack 0 := by
  obtain ⟨-, hnode⟩ := removal_parent (E := E) h hdir hi hx hleaf hoff
  have hc : Node.childrenCount (nodeAt disk u) = 1 := by
    unfold Node.count at h1
    omega
  have hi0 : i = 0 := by omega
  subst hi0
  rw [hnode, slice_of_lt (by decide)]
  exact dropChild_stack (b := 0) hc (by decide)

end Removal

/-- A call that returned found its slot and released the inode. -/
theorem fsRemove_ok (hE : E.Reliable) (h : fsRemove E fsdesc p w = (.ok (), w')) :
    ∃ par name u i, splitPath p = pure (par, name)
      ∧ RemoveOk w.disk par name u i ∧ Releasable E w.disk u i
      ∧ w'.disk = removeDisk E w.disk u i := by
  rcases fsRemove_cases hE p w with
    ⟨par, name, u, i, hsp, hr, ⟨hrel, -, n, hw⟩ | ⟨-, hpanic⟩⟩ | ⟨⟨e, he⟩, -⟩
  · rw [h] at hw
    dsimp only at hw
    exact ⟨par, name, u, i, hsp, hr, hrel, by rw [hw]⟩
  · rw [h] at hpanic
    cases hpanic
  · rw [h] at he
    cases he

/-- On the root there is nothing to find. -/
theorem remove_root_fails (hE : E.Reliable)
    (hwf : WellFormed w.disk) : fsRemove E fsdesc [slash] w ≠ (.ok (), w') := by
  intro h
  obtain ⟨par, name, u, i, hsp, hr, -, -⟩ := fsRemove_ok hE h
  have hsplit : splitPath [slash] = pure ([slash], []) :=
    splitPath_eq [] List.not_mem_nil
  rw [hsplit] at hsp
  obtain ⟨rfl, rfl⟩ := Prod.mk.inj (Prog.pure_inj w hsp)
  have hu : u = 0 :=
    Except.ok.inj (hr.parent.symm.trans hwf.treeOk.lookup_root)
  subst hu
  have hname : Node.slotName (nodeAt w.disk 0) i = [] :=
    (equalToBuffer_iff List.not_mem_nil (by decide)).mp hr.holds.2
  exact (hwf.name 0 (.inl rfl) i hr.slot.1).1 hname

/-- On a well-formed disk a removal of a childless node is right exactly
when it never returns `0`. The node's value `v` is an inode whose table
entry does not overlap the tree. -/
theorem removal_correct_iff (hE : E.Reliable) {w : FsWorld}
    (hwf : WellFormed w.disk) {p : Path} (hp : Normpath p) {x v : Nat}
    (hx : (fsReaddirInit E fsdesc p w).1 = .ok (x, 0))
    (hv : (fsGetattr E fsdesc p w).1 = .ok v) :
    (NeverRemoved w.disk p v → RemovalCorrect E p w)
      ∧ (OffTree v → RemovalCorrect E p w → NeverRemoved w.disk p v) := by
  have htree := hwf.treeOk
  -- the node `p` names
  have hfound : lookup w.disk 0 (pathParts p) = .ok x
      ∧ Node.childrenCount (nodeAt w.disk x) = 0
      ∧ Node.value (nodeAt w.disk x) = v := by
    rw [fsReaddirInit_lookup hE hp.1] at hx
    rw [fsGetattr_lookup hE hp.1] at hv
    cases hl : lookup w.disk 0 (pathParts p) with
    | error e =>
        rw [hl] at hx
        cases hx
    | ok y =>
        rw [hl] at hx hv
        obtain ⟨rfl, hc⟩ := Prod.mk.inj (Except.ok.inj hx)
        exact ⟨rfl, hc, Except.ok.inj hv⟩
  obtain ⟨hl, hcount, rfl⟩ := hfound
  have hleaf : Leaf w.disk x := by
    unfold Leaf Node.count
    rw [hcount]
    rfl
  constructor
  · rintro (rfl | ⟨hv0, hoff, href⟩) w' hrun
    · exact absurd hrun (remove_root_fails hE hwf)
    · exfalso
      by_cases hroot : p = [slash]
      · subst hroot
        exact remove_root_fails hE hwf hrun
      obtain ⟨cs, c, u, i, hn, ht⟩ := htree.target hp hroot hl
      obtain ⟨par, name, u', i', hsp, hr, hrel, -⟩ := fsRemove_ok hE hrun
      obtain ⟨rfl, rfl⟩ := ht.unique htree hp hn hsp hr
      unfold Releasable at hrel
      rw [removedValue_leaf ht.slot ht.index hleaf,
        entryAt_removeSlot ht.dir.lt hoff, href] at hrel
      exact absurd (hrel hv0) (Nat.lt_irrefl 0)
  · intro hoff hcorrect
    refine Classical.byContradiction fun hnot => ?_
    have hroot : p ≠ [slash] := fun he => hnot (.inl he)
    obtain ⟨cs, c, u, i, hn, ht⟩ := htree.target hp hroot hl
    obtain ⟨hsp, hr⟩ := ht.removeOk htree hp hn
    -- the call returns, whatever lies on the stack
    have hreturns : ∀ E' : FsEnv, E'.Reliable →
        (fsRemove E' fsdesc p w).1 = .ok ()
          ∧ (fsRemove E' fsdesc p w).2.disk = removeDisk E' w.disk u i := by
      intro E' hE'
      have hrel : Releasable E' w.disk u i := by
        intro hne
        rw [removedValue_leaf ht.slot ht.index hleaf] at hne ⊢
        rw [entryAt_removeSlot ht.dir.lt hoff]
        exact Nat.pos_of_ne_zero fun h0 => hnot (.inr ⟨hne, hoff, h0⟩)
      rcases fsRemove_cases hE' p w with
        ⟨par, name, u', i', hsp', hr', hcase⟩ | ⟨-, -, hno⟩
      · obtain ⟨rfl, rfl⟩ := ht.unique htree hp hn hsp' hr'
        rcases hcase with ⟨-, hok, n, hw⟩ | ⟨hnrel, -⟩
        · exact ⟨hok, by rw [hw]⟩
        · exact absurd hrel hnrel
      · have := hno _ _ _ _ hsp hr
        have := (hwf.count u ht.dir).2
        omega
    obtain ⟨hok, hdisk⟩ := hreturns E hE
    have hrun : fsRemove E fsdesc p w = (.ok (), (fsRemove E fsdesc p w).2) :=
      Prod.ext hok rfl
    obtain ⟨hwf', -, -, hstack⟩ := hcorrect _ hrun
    rcases Nat.lt_or_ge (Node.count (nodeAt w.disk u)) 2 with h1 | h2
    · -- the only child: another stack gives another disk
      have hone : Node.count (nodeAt w.disk u) = 1 := by
        have := ht.slot
        omega
      let E' : FsEnv := { E with stack := fun _ => if E.stack 0 = 0 then 1 else 0 }
      obtain ⟨-, hdisk'⟩ := hreturns E' hE
      have hsame := hstack E'.stack
      have hbyte := removal_reads_stack (E := E) hwf ht.dir ht.slot ht.index hleaf
        hoff hone
      have hbyte' := removal_reads_stack (E := E') hwf ht.dir ht.slot ht.index hleaf
        hoff hone
      rw [← hdisk] at hbyte
      rw [← hdisk', show fsRemove E' fsdesc p w = fsRemove E fsdesc p w from hsame,
        hbyte] at hbyte'
      have hne : E.stack 0 ≠ if E.stack 0 = 0 then 1 else 0 := by
        split
        · next h0 =>
            rw [h0]
            decide
        · next h0 => exact h0
      exact hne hbyte'
    · rw [hdisk] at hwf'
      exact removal_not_wellFormed hwf ht.dir ht.slot ht.index hleaf hoff h2 hwf'

/-- A file `/a` whose inode 3 has no reference. -/
def unreferenced : FsWorld := (fsTouch plainEnv fsdesc [47, 97] 3 blank).2

/-- Two directories `/a` and `/b`. -/
def twoDirs : FsWorld :=
  (fsTouch plainEnv fsdesc [47, 98] 0 (fsTouch plainEnv fsdesc [47, 97] 0 blank).2).2

theorem twoDirs_wellFormed : WellFormed twoDirs.disk :=
  fsTouch_wellFormed plainEnv_reliable
    (fsTouch_wellFormed plainEnv_reliable wellFormed_zero (by decide) 0) (by decide) 0

theorem ok_of_toOption {α : Type} {r : Except Stop α} {a : α}
    (h : r.toOption = some a) : r = .ok a := by
  cases r with
  | error e => cases h
  | ok b => exact congrArg Except.ok (Option.some.inj h)

/-- The removal of `/a` is right when inode 3 is dead, and wrong beside
`/b`. -/
theorem removal_correct_iff_examples :
    RemovalCorrect plainEnv [47, 97] unreferenced
      ∧ ¬ RemovalCorrect plainEnv [47, 97] twoDirs := by
  have h1 := removal_correct_iff plainEnv_reliable (w := unreferenced)
    (fsTouch_wellFormed plainEnv_reliable wellFormed_zero (by decide) 3)
    (p := [47, 97]) (by decide) (x := 1) (v := 3)
    (ok_of_toOption (by decide +kernel)) (ok_of_toOption (by decide +kernel))
  have h2 := removal_correct_iff plainEnv_reliable twoDirs_wellFormed
    (p := [47, 97]) (by decide) (x := 1) (v := 0)
    (ok_of_toOption (by decide +kernel)) (ok_of_toOption (by decide +kernel))
  refine ⟨h1.1 (.inr ⟨by decide, by decide, by decide +kernel⟩), fun hc => ?_⟩
  rcases h2.2 (by decide) hc with hroot | ⟨h0, -⟩
  · exact absurd hroot (by decide)
  · exact h0 rfl

/-- With `/a` and `/b` in the root, `fs_remove("/a")` returns `0`, `/a`
is still there, and the directory is not well formed any more. -/
theorem removed_file_remains :
    ∃ w', WellFormed twoDirs.disk
      ∧ (fsReaddirInit plainEnv fsdesc [47, 97] twoDirs).1 = .ok (1, 0)
      ∧ fsRemove plainEnv fsdesc [47, 97] twoDirs = (.ok (), w')
      ∧ (fsGetattr plainEnv fsdesc [47, 97] w').1 = .ok 0
      ∧ ¬ WellFormed w'.disk := by
  have hrun := Prog.eq_of_toOption
    (by decide +kernel : (fsRemove plainEnv fsdesc [47, 97] twoDirs).1.toOption = some ())
  refine ⟨_, twoDirs_wellFormed, ok_of_toOption (by decide +kernel), hrun,
    ok_of_toOption (by decide +kernel), fun hwf => ?_⟩
  -- slot 1 of the root still holds `b`
  have hz := hwf.rest 0 (.inl rfl) 1 (by decide +kernel) (by decide)
  exact absurd (hz 0 (by decide)) (by decide +kernel)

end RojocOS.Fs
