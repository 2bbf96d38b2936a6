/-
Creation: `fs_touch` hangs a new leaf into the tree.

The three writes of `fs_touch` change two nodes and one byte of the
usage map. Read through the lookup graph that is a graft
(`TreeOk.touch`), from which the effect on every path follows:
`touch_creates` at the end.
-/
import RojocOS.Fs.Proofs.Directory

namespace RojocOS.Fs

open ByteMap Graph

variable {disk disk' : ByteMap} {u k value a i : Nat} {name c : Path}
variable {v x : Nat} {nd : ByteMap} {p par : Path} {cs : List Path} {w : FsWorld}

-- ==== the disk after the call

theorem touchDisk_new :
    nodeAt (touchDisk disk u k name value) k = slice (Node.setValue zero value) 0 1160 :=
  nodeAt_copy_same

/-- A byte of the usage map is in no node. -/
theorem nodeAt_copy_usage (disk src : ByteMap) (v : Nat) (hk : k < 16) :
    nodeAt (copy disk (4892 + k) src 0 1) v = nodeAt disk v :=
  nodeAt_congr fun _ _ _ => copy_of_not_mem (by omega)

theorem touchDisk_parent (hk : k < 16) (hne : u ≠ k) :
    nodeAt (touchDisk disk u k name value) u
      = slice (addChild (nodeAt disk u) (Node.count (nodeAt disk u)) name k) 0 1160 := by
  unfold touchDisk
  rw [nodeAt_copy_other hne, nodeAt_copy_usage _ _ _ hk, nodeAt_copy_same]

theorem touchDisk_other (hk : k < 16) (hvk : v ≠ k) (hvu : v ≠ u) :
    nodeAt (touchDisk disk u k name value) v = nodeAt disk v := by
  unfold touchDisk
  rw [nodeAt_copy_other hvk, nodeAt_copy_usage _ _ _ hk, nodeAt_copy_other hvu]

theorem touchDisk_usage (hx : x < 16) :
    touchDisk disk u k name value (4892 + x)
      = if x = k then 1 else disk (4892 + x) := by
  unfold touchDisk
  rw [copy_of_not_mem (by omega)]
  by_cases hxk : x = k
  · rw [if_pos hxk, copy_of_mem (by omega)]
    rfl
  · rw [if_neg hxk, copy_of_not_mem (by omega), copy_of_not_mem (by omega)]

/-- Everything but the usage map and the nodes is untouched. -/
theorem touchDisk_outside (hu : u < 16) (hk : k < 16)
    (ha : a < 4892 ∨ 88988 ≤ a) : touchDisk disk u k name value a = disk a := by
  unfold touchDisk
  rw [copy_of_not_mem (by omega), copy_of_not_mem (by omega), copy_of_not_mem (by omega)]

/-- The new node: no children, every slot zero. -/
theorem newNode_zero (hi : i < 32) :
    ZeroSlot (slice (Node.setValue zero value) 0 1160) i := by
  intro b hb
  rw [slice_of_lt (by omega), Nat.zero_add]
  unfold Node.setValue
  rw [store_of_not_mem (by omega)]
  rfl

theorem newNode_count :
    Node.childrenCount (slice (Node.setValue zero value) 0 1160) = 0 := by
  have h : load (slice (Node.setValue zero value) 0 1160) 4 4 = 0 := by
    rw [load_slice (by decide)]
    unfold Node.setValue
    rw [load_store_of_disjoint (by decide)]
    exact load_eq_zero.mpr fun _ _ _ => rfl
  unfold Node.childrenCount
  rw [h]
  rfl

theorem newNode_value (hv : value < 2 ^ 32) :
    Node.value (slice (Node.setValue zero value) 0 1160) = value := by
  rw [value_slice]
  unfold Node.value Node.setValue
  rw [load_store_of_lt (by omega)]

theorem newNode_dirOk : DirOk (slice (Node.setValue zero value) 0 1160) :=
  DirOk.of_zero newNode_count fun _ hi => newNode_zero hi

theorem dirOk_slice (h : DirOk nd) : DirOk (slice nd 0 1160) :=
  h.congr childrenCount_slice fun _ hi => sameSlot_slice hi

theorem count_slice : Node.count (slice nd 0 1160) = Node.count nd := by
  unfold Node.count
  rw [childrenCount_slice]

/-- The edges out of a node depend on the node only. -/
theorem child_congr (h : nodeAt disk' v = nodeAt disk v)
    (c : Path) : child disk' v c = child disk v c := by
  unfold child edge
  rw [h]

-- ==== the tree after it

section

variable (ht : TouchOk disk par name u k)

include ht

/-- A name that passed the duplicate check is in no child slot. -/
theorem TouchOk.new (hd : DirOk (nodeAt disk u))
    (h0 : 0 ∉ name) : ∀ i < Node.count (nodeAt disk u),
      Node.slotName (nodeAt disk u) i ≠ name :=
  fun i hi hs => ht.absent i hi ((hd.holds h0 ht.short hi).mpr hs)

theorem TouchOk.not_dir : ¬ Dir disk k := by
  rintro (h | h)
  · have := ht.index
    omega
  · exact h.2.2 ht.free

theorem touchDisk_used :
    Used (touchDisk disk u k name value) x ↔ Used disk x ∨ x = k := by
  have hk := ht.index
  constructor
  · rintro ⟨h1, h16, hb⟩
    rw [touchDisk_usage h16] at hb
    by_cases hxk : x = k
    · exact .inr hxk
    · rw [if_neg hxk] at hb
      exact .inl ⟨h1, h16, hb⟩
  · rintro (⟨h1, h16, hb⟩ | rfl)
    · refine ⟨h1, h16, ?_⟩
      rw [touchDisk_usage h16]
      split
      · decide
      · exact hb
    · refine ⟨hk.1, hk.2, ?_⟩
      rw [touchDisk_usage hk.2, if_pos rfl]
      decide

theorem touchDisk_dir : Dir (touchDisk disk u k name value) v ↔ Dir disk v ∨ v = k := by
  unfold Dir
  rw [touchDisk_used ht, or_assoc]

/-- The parent node after the call: one slot more. -/
theorem TouchOk.parent_slots (h0 : 0 ∉ name) (hne : u ≠ k) :
    Node.childrenCount (nodeAt (touchDisk disk u k name v) u)
        = Node.childrenCount (nodeAt disk u) + 1
      ∧ Node.slotName (nodeAt (touchDisk disk u k name v) u) (Node.count (nodeAt disk u)) = name
      ∧ Node.childIndex (nodeAt (touchDisk disk u k name v) u) (Node.count (nodeAt disk u)) = k
      ∧ ∀ i < 32, i ≠ Node.count (nodeAt disk u) →
          SameSlot (nodeAt disk u) i (nodeAt (touchDisk disk u k name v) u) i := by
  have hk := ht.index
  have hslot : Node.count (nodeAt disk u) < 32 := by
    have := ht.room
    unfold Node.count
    omega
  rw [touchDisk_parent hk.2 hne]
  refine ⟨?_, ?_, ?_, fun i hi hin b hb => ?_⟩
  · rw [childrenCount_slice, addChild_count ht.room]
  · rw [(sameSlot_slice hslot).name]
    exact addChild_name h0 ht.short
  · rw [(sameSlot_slice hslot).index]
    exact addChild_index (by omega)
  · rw [sameSlot_slice hi b hb]
    exact addChild_other ht.short hin b hb

/-- A directory as parent: one child more. -/
theorem TouchOk.parent_add (value : Nat)
    (hd : DirOk (nodeAt disk u)) (hn : Label name) (hne : u ≠ k) :
    DirOk (nodeAt (touchDisk disk u k name value) u)
      ∧ Node.count (nodeAt (touchDisk disk u k name value) u)
        = Node.count (nodeAt disk u) + 1
      ∧ Node.slotName (nodeAt (touchDisk disk u k name value) u)
          (Node.count (nodeAt disk u)) = name
      ∧ Node.childIndex (nodeAt (touchDisk disk u k name value) u)
          (Node.count (nodeAt disk u)) = k
      ∧ ∀ i < 32, i ≠ Node.count (nodeAt disk u) →
          SameSlot (nodeAt disk u) i (nodeAt (touchDisk disk u k name value) u) i := by
  obtain ⟨hd', hc'⟩ := hd.add ht.room.2 hn (ht.new hd hn.2.1) ht.index
  have hslots := ht.parent_slots (v := value) hn.2.1 hne
  rw [touchDisk_parent ht.index.2 hne] at hslots ⊢
  exact ⟨dirOk_slice hd', count_slice.trans hc', hslots.2⟩

/-- The references after the call: one new one. -/
theorem TouchOk.refers (value : Nat) (h : TreeOk disk)
    (hu : Dir disk u) (hn : Label name) {r : Nat × Nat} :
    Refers (touchDisk disk u k name value) r x
      ↔ (r = (u, Node.count (nodeAt disk u)) ∧ x = k) ∨ Refers disk r x := by
  have hk := ht.index
  have hne : u ≠ k := fun he => ht.not_dir (he ▸ hu)
  have hle := (h.dir u hu).count_le
  obtain ⟨-, hcnt, -, hidx, hsame⟩ := ht.parent_add value (h.dir u hu) hn hne
  obtain ⟨v, i⟩ := r
  constructor
  · rintro ⟨hv, hi, hx⟩
    rw [touchDisk_dir ht] at hv
    by_cases hvk : v = k
    · subst hvk
      rw [touchDisk_new, Node.count, newNode_count] at hi
      exact absurd hi (Nat.not_lt_zero i)
    · have hv : Dir disk v := hv.resolve_right hvk
      by_cases hvu : v = u
      · subst hvu
        rw [hcnt] at hi
        by_cases hin : i = Node.count (nodeAt disk v)
        · subst hin
          exact .inl ⟨rfl, hx.symm.trans hidx⟩
        · rw [(hsame i (by omega) hin).index] at hx
          exact .inr ⟨hv, show i < Node.count (nodeAt disk v) by omega, hx⟩
      · rw [touchDisk_other hk.2 hvk hvu] at hi hx
        exact .inr ⟨hv, hi, hx⟩
  · rintro (⟨heq, rfl⟩ | ⟨hv, hi, hx⟩)
    · cases heq
      refine ⟨(touchDisk_dir ht).mpr (.inl hu), ?_, hidx⟩
      rw [hcnt]
      omega
    · dsimp only at hv hi hx
      have hvk : v ≠ k := fun he => ht.not_dir (he ▸ hv)
      refine ⟨(touchDisk_dir ht).mpr (.inl hv), ?_, ?_⟩
      · show i < _
        by_cases hvu : v = u
        · subst hvu
          rw [hcnt]
          omega
        · rwa [touchDisk_other hk.2 hvk hvu]
      · show Node.childIndex _ i = x
        by_cases hvu : v = u
        · subst hvu
          rw [(hsame i (by omega) (by omega)).index]
          exact hx
        · rwa [touchDisk_other hk.2 hvk hvu]

end

/-- `fs_touch` keeps the tree. -/
theorem TreeOk.touch (h : TreeOk disk) (ht : TouchOk disk par name u k) (value : Nat)
    (hu : Dir disk u) (hn : Label name) : TreeOk (touchDisk disk u k name value) := by
  have hk := ht.index
  have hne : u ≠ k := fun he => ht.not_dir (he ▸ hu)
  obtain ⟨hdir, hcnt, -, hidx, hsame⟩ := ht.parent_add value (h.dir u hu) hn hne
  have hrefers := fun r x => ht.refers value h hu hn (r := r) (x := x)
  have hused : ∀ v, Dir (touchDisk disk u k name value) v →
      ∀ i < Node.count (nodeAt (touchDisk disk u k name value) v),
        Used (touchDisk disk u k name value)
          (Node.childIndex (nodeAt (touchDisk disk u k name value) v) i) := by
    intro v hv i hi
    rw [touchDisk_used ht]
    rcases (hrefers (v, i) _).mp ⟨hv, hi, rfl⟩ with ⟨-, hx⟩ | ⟨hv', hi', hx⟩
    · exact .inr hx
    · exact .inl (hx ▸ h.used v hv' i hi')
  have honce : ∀ x, Used (touchDisk disk u k name value) x →
      ∃! r : Nat × Nat, Refers (touchDisk disk u k name value) r x := by
    intro x hx
    rcases (touchDisk_used ht).mp hx with hold | rfl
    · obtain ⟨r, hr, huniq⟩ := h.once x hold
      refine ⟨r, (hrefers r x).mpr (.inr hr), fun r' hr' => ?_⟩
      rcases (hrefers r' x).mp hr' with ⟨-, hxk⟩ | hr'
      · exact absurd (.inr (hxk ▸ hold)) ht.not_dir
      · exact huniq r' hr'
    · refine ⟨(u, Node.count (nodeAt disk u)),
        (hrefers _ _).mpr (.inl ⟨rfl, rfl⟩), fun r' hr' => ?_⟩
      rcases (hrefers r' x).mp hr' with ⟨heq, -⟩ | ⟨hv, hi, hx⟩
      · exact heq
      · exact absurd (.inr (hx ▸ h.used _ hv _ hi)) ht.not_dir
  refine ⟨?_, hused, ?_, honce⟩
  · intro v hv
    by_cases hvk : v = k
    · rw [hvk, touchDisk_new]
      exact newNode_dirOk
    · by_cases hvu : v = u
      · rw [hvu]
        exact hdir
      · rw [touchDisk_other hk.2 hvk hvu]
        exact h.dir v (((touchDisk_dir ht).mp hv).resolve_right hvk)
  · intro v hv i hi h32
    by_cases hvk : v = k
    · rw [hvk, touchDisk_new]
      exact (newNode_zero h32).vacant
    · by_cases hvu : v = u
      · subst hvu
        -- the slot written is among the first fifteen
        have hcle := count_le_of_once hused honce hv
        have hs := hsame i h32 (by omega)
        have hv := h.spare v hu i hi h32
        exact ⟨hs.name.trans hv.1, hs.index.trans hv.2⟩
      · rw [touchDisk_other hk.2 hvk hvu]
        exact h.spare v (((touchDisk_dir ht).mp hv).resolve_right hvk) i hi h32

/-- In the lookup graph it is a graft. -/
theorem TreeOk.touch_graft (h : TreeOk disk) (ht : TouchOk disk par name u k)
    (value : Nat) (hu : Dir disk u) (hn : Label name) :
    Graft (child disk) (child (touchDisk disk u k name value)) (Dir disk) u name k := by
  have hk := ht.index
  have hne : u ≠ k := fun he => ht.not_dir (he ▸ hu)
  obtain ⟨hdir, hcnt, hname, hidx, hsame⟩ := ht.parent_add value (h.dir u hu) hn hne
  have hle := (h.dir u hu).count_le
  refine ⟨hu, ht.not_dir, ?_, ?_, ?_, ?_⟩
  · rw [Option.eq_none_iff_forall_ne_some]
    intro x hx
    obtain ⟨-, i, hi, hc, -⟩ := (h.dir u hu).child_eq_some.mp hx
    exact ht.new (h.dir u hu) hn.2.1 i hi hc
  · exact hdir.child_eq_some.mpr ⟨hn, _, by omega, hname, hidx⟩
  · intro b
    rw [Option.eq_none_iff_forall_ne_some]
    intro x hx
    have hdk : DirOk (nodeAt (touchDisk disk u k name value) k) := by
      rw [touchDisk_new]
      exact newNode_dirOk
    obtain ⟨-, i, hi, -⟩ := hdk.child_eq_some.mp hx
    rw [touchDisk_new, Node.count, newNode_count] at hi
    exact absurd hi (Nat.not_lt_zero i)
  · intro v b hv hvb
    have hvk : v ≠ k := fun he => ht.not_dir (he ▸ hv)
    by_cases hvu : v = u
    · subst hvu
      apply Option.ext
      intro x
      rw [hdir.child_eq_some, (h.dir v hu).child_eq_some]
      constructor
      · rintro ⟨hb, i, hi, hc, hx⟩
        have hin : i ≠ Node.count (nodeAt disk v) := by
          rintro rfl
          exact hvb ⟨rfl, hc.symm.trans hname⟩
        have hs := hsame i (by omega) hin
        exact ⟨hb, i, by omega, hs.name.symm.trans hc, hs.index.symm.trans hx⟩
      · rintro ⟨hb, i, hi, hc, hx⟩
        have hs := hsame i (by omega) (by omega)
        exact ⟨hb, i, by omega, hs.name.trans hc, hs.index.trans hx⟩
    · exact child_congr (touchDisk_other hk.2 hvk hvu) b

/-- No other node's value changes. -/
theorem touchDisk_value (hk : k < 16) (hvk : v ≠ k) (hl : name.length < 32) :
    Node.value (nodeAt (touchDisk disk u k name value) v)
      = Node.value (nodeAt disk v) := by
  by_cases hvu : v = u
  · rw [hvu, touchDisk_parent hk (hvu ▸ hvk), value_slice, addChild_value hl]
  · rw [touchDisk_other hk hvk hvu]

-- ==== fs_touch

theorem nodeAt_zero (u : Nat) : nodeAt zero u = zero := by
  funext x
  unfold nodeAt slice
  split <;> rfl

/-- The all-zero disk is a tree: the root and nothing else. -/
theorem wellFormed_zero : WellFormed ByteMap.zero := by
  have hz : ∀ u, ∀ i < 32, ZeroSlot (nodeAt ByteMap.zero u) i := by
    intro u i _ b _
    rw [nodeAt_zero]
    rfl
  have hc : ∀ u, Node.childrenCount (nodeAt ByteMap.zero u) = 0 := by
    intro u
    rw [nodeAt_zero]
    rfl
  have hn : ∀ u, Node.count (nodeAt ByteMap.zero u) = 0 := by
    intro u
    unfold Node.count
    rw [hc]
    rfl
  refine ⟨?_, ?_, ?_, ?_, ?_, ?_⟩
  · intro u _
    rw [hc]
    decide
  · intro u _ i hi
    rw [hn] at hi
    exact absurd hi (Nat.not_lt_zero i)
  · intro u _ i hi
    rw [hn] at hi
    exact absurd hi (Nat.not_lt_zero i)
  · intro u _ i hi
    rw [hn] at hi
    exact absurd hi (Nat.not_lt_zero i)
  · exact fun u _ i _ h32 => hz u i h32
  · exact fun x hx => absurd rfl hx.2.2

/-- The zero slots behind the count stay zero. -/
theorem WellFormed.touch (h : WellFormed disk)
    (ht : TouchOk disk par name u k) (hu : Dir disk u) (hn : Label name) :
    WellFormed (touchDisk disk u k name value) := by
  have hk := ht.index
  have hne : u ≠ k := fun he => ht.not_dir (he ▸ hu)
  obtain ⟨-, hcnt, -, -, hsame⟩ :=
    ht.parent_add value (h.treeOk.dir u hu) hn hne
  refine (h.treeOk.touch ht value hu hn).wellFormed fun v hv i hi h32 => ?_
  by_cases hvk : v = k
  · rw [hvk, touchDisk_new]
    exact newNode_zero h32
  · by_cases hvu : v = u
    · subst hvu
      exact (hsame i h32 (by omega)).zero (h.rest v hu i (by omega) h32)
    · rw [touchDisk_other hk.2 hvk hvu] at hi ⊢
      exact h.rest v (((touchDisk_dir ht).mp hv).resolve_right hvk) i hi h32

/-- A lookup that arrives met no long name. -/
theorem short_of_lookup :
    ∀ {u v}, lookup disk u cs = .ok v → ∀ c ∈ cs, shortName c = true := by
  induction cs with
  | nil => exact fun _ _ hc => absurd hc List.not_mem_nil
  | cons c cs ih =>
    intro u v h d hd
    rw [lookup] at h
    split at h
    · cases h
    · next hlen =>
        split at h
        · cases h
        · rcases List.mem_cons.mp hd with rfl | hd
          · exact decide_eq_true (by omega)
          · exact ih h d hd

/-- The parent of a path without NUL is a directory. -/
theorem TouchOk.dir (ht : TouchOk disk par name u k) (h : TreeOk disk)
    (h0 : 0 ∉ par) : Dir disk u :=
  h.lookup_dir (.inl rfl) (fun _ hc hx => h0 (mem_of_mem_pathParts hc hx)) ht.parent

variable {E : FsEnv}

/-- A C string whose last part is not empty. -/
def NamedPath (p : Path) : Prop := 0 ∉ p ∧ lastPart p ≠ []

instance (p : Path) : Decidable (NamedPath p) := inferInstanceAs (Decidable (_ ∧ _))

/-- The parent and the name such a path is split into. -/
theorem NamedPath.split (hp : NamedPath p) (hs : splitPath p = pure (par, name)) :
    0 ∉ par ∧ name ≠ [] ∧ 0 ∉ name := by
  obtain ⟨rfl, hpar, hname, -⟩ := splitPath_last hs
  exact ⟨fun hx => hp.1 (hpar 0 hx), hp.2, fun hx => hp.1 (hname 0 hx)⟩

/-- What a touch of such a path has done, if anything. -/
theorem fsTouch_effect (hE : E.Reliable) (h : TreeOk w.disk)
    (hp : NamedPath p) (v : Nat) :
    (fsTouch E fsdesc p v w).2.disk = w.disk
      ∨ ∃ par name u k, splitPath p = pure (par, name)
          ∧ TouchOk w.disk par name u k ∧ Dir w.disk u ∧ Label name
          ∧ (fsTouch E fsdesc p v w).2.disk = touchDisk w.disk u k name v := by
  rcases fsTouch_cases hE p v w with
    ⟨par, name, u, k, hsp, ht, -, hw⟩ | ⟨-, hw⟩
  · obtain ⟨hpar, hne, h0⟩ := hp.split hsp
    exact .inr ⟨par, name, u, k, hsp, ht, ht.dir h hpar, ⟨hne, h0, ht.short⟩, hw.disk_eq⟩
  · exact .inl hw.disk_eq

theorem fsTouch_wellFormed (hE : E.Reliable) (h : WellFormed w.disk)
    (hp : NamedPath p) (v : Nat) : WellFormed (fsTouch E fsdesc p v w).2.disk := by
  rcases fsTouch_effect hE h.treeOk hp v with hd | ⟨_, _, _, _, -, ht, hu, hn, hd⟩
  · rw [hd]
    exact h
  · rw [hd]
    exact h.touch ht hu hn

/-- After the creation of a normalised path its parent is found to be a
directory, and the path leads to the new node. -/
theorem TreeOk.touch_found (htree : TreeOk disk)
    (hp : Normpath p) (hn : names p = cs ++ [c]) (hc : c.length ≤ 30)
    (hsplit : splitPath p = pure (par, name)) (ht : TouchOk disk par name u k) (v : Nat) :
    name = c ∧ lookup disk 0 cs = .ok u ∧ Dir disk u ∧ Label c
      ∧ lookup (touchDisk disk u k c v) 0 (pathParts p) = .ok k := by
  have hok : ∀ d ∈ names p, d ≠ [] ∧ 0 ∉ d := fun d hd => ⟨(hp.2 d hd).1, (hp.2 d hd).2.2⟩
  have hname : Name c := hp.2 c (by rw [hn]; simp)
  have hlabel : Label c := ⟨hname.1, hname.2.2, by omega⟩
  rw [splitPath_normpath hp hn] at hsplit
  obtain ⟨rfl, rfl⟩ := Prod.mk.inj (Prog.pure_inj blank hsplit)
  have hcs : ∀ d ∈ cs, d ≠ [] ∧ 0 ∉ d :=
    fun d hd => hok d (by rw [hn]; exact List.mem_append_left _ hd)
  have hparent : lookup disk 0 cs = .ok u := by
    rw [← names_parent hp hn, ← htree.lookup_names]
    exact ht.parent
  have hu : Dir disk u :=
    htree.lookup_dir (.inl rfl) (fun d hd => (hcs d hd).2) hparent
  refine ⟨rfl, hparent, hu, hlabel, ?_⟩
  rw [(htree.touch ht v hu hlabel).lookup_names, hn]
  apply lookup_of_walk
  · exact fun d hd => hok d (by rw [hn]; exact hd)
  · intro d hd
    rcases List.mem_append.mp hd with hd | hd
    · exact short_of_lookup hparent d hd
    · rw [List.mem_singleton.mp hd]
      exact decide_eq_true (by omega)
  · exact (htree.touch_graft ht v hu hlabel).walk_leaf htree.arbor (walk_of_lookup hcs hparent)

/-- Creation on a well-formed disk: the tree stays well formed, the path
has the value and no children, every path that is not at or below it
reads as before, and only the usage map and the nodes are written. -/
theorem touch_creates (hE : E.Reliable) {w w' : FsWorld}
    (hwf : WellFormed w.disk) {p c : Path} (hp : Normpath p)
    (hlast : (names p).getLast? = some c) (hc : c.length ≤ 30)
    {v : Nat} (hv : v < 2 ^ 32) (h : fsTouch E fsdesc p v w = (.ok (), w')) :
    WellFormed w'.disk
      ∧ (fsGetattr E fsdesc p w').1 = .ok v
      ∧ (∃ k, (fsReaddirInit E fsdesc p w').1 = .ok (k, 0))
      ∧ (∀ q, Normpath q → ¬ AtOrBelow p q →
          (fsGetattr E fsdesc q w').1 = (fsGetattr E fsdesc q w).1)
      ∧ ∀ a, a < 4892 ∨ 88988 ≤ a → w'.disk a = w.disk a := by
  obtain ⟨cs, hn⟩ : ∃ cs, names p = cs ++ [c] := by
    obtain ⟨cs, hcs⟩ := List.getLast?_eq_some_iff.mp hlast
    exact ⟨cs, hcs⟩
  have hok : ∀ q, Normpath q → ∀ d ∈ names q, d ≠ [] ∧ 0 ∉ d :=
    fun q hq d hd => ⟨(hq.2 d hd).1, (hq.2 d hd).2.2⟩
  -- the call found the parent and a free node
  rcases fsTouch_cases hE p v w with ⟨par, name, u, k, hsplit, ht, -, n, hw⟩ | ⟨⟨e, he⟩, -⟩
  case inr =>
    rw [h] at he
    cases he
  rw [h] at hw
  dsimp only at hw
  have htree := hwf.treeOk
  obtain ⟨rfl, hparent, hu, hlabel, hfound⟩ := htree.touch_found hp hn hc hsplit ht v
  have hwalk := walk_of_lookup
    (fun d hd => hok p hp d (by rw [hn]; exact List.mem_append_left _ hd)) hparent
  have hgraft := htree.touch_graft ht v hu hlabel
  have htree' := htree.touch ht v hu hlabel
  have hdisk : w'.disk = touchDisk w.disk u k name v := by rw [hw]
  rw [← hdisk] at hfound
  refine ⟨?_, ?_, ⟨k, ?_⟩, ?_, ?_⟩
  · rw [hdisk]
    exact hwf.touch ht hu hlabel
  · rw [fsGetattr_lookup hE hp.1, hfound, hdisk]
    show Except.ok (Node.value (nodeAt (touchDisk w.disk u k name v) k)) = _
    rw [touchDisk_new, newNode_value hv]
  · rw [fsReaddirInit_lookup hE hp.1, hfound, hdisk]
    show Except.ok (k, Node.childrenCount (nodeAt (touchDisk w.disk u k name v) k)) = _
    rw [touchDisk_new, newNode_count]
  · intro q hq hbelow
    have hsame : lookup w'.disk 0 (pathParts q) = lookup w.disk 0 (pathParts q) := by
      rw [hdisk, htree'.lookup_names, htree.lookup_names, lookup_eq_walk (hok q hq),
        lookup_eq_walk (hok q hq), hgraft.walk_other htree.arbor hwalk ?_]
      intro hpre
      apply hbelow
      unfold AtOrBelow
      rw [hn]
      exact hpre.trans (List.takeWhile_prefix _)
    rw [fsGetattr_lookup hE hq.1, fsGetattr_lookup hE hq.1, hsame]
    cases hl : lookup w.disk 0 (pathParts q) with
    | error e => rfl
    | ok x =>
        have hx : Dir w.disk x := by
          rw [htree.lookup_names] at hl
          exact htree.lookup_dir (.inl rfl) (fun d hd => (hok q hq d hd).2) hl
        have hxk : x ≠ k := fun he => ht.not_dir (he ▸ hx)
        show Except.ok (Node.value (nodeAt w'.disk x)) = _
        rw [hdisk, touchDisk_value ht.index.2 hxk hlabel.2.2]
        rfl
  · intro a ha
    rw [hdisk]
    exact touchDisk_outside hu.lt ht.index.2 ha

/-- `fs_touch("/a", 3)` on the all-zero disk. -/
theorem touch_creates_blank :
    ∃ w', fsTouch plainEnv fsdesc [47, 97] 3 blank = (.ok (), w')
      ∧ WellFormed w'.disk
      ∧ (fsGetattr plainEnv fsdesc [47, 97] w').1 = .ok 3 := by
  have h := Prog.eq_of_toOption
    (by decide +kernel : (fsTouch plainEnv fsdesc [47, 97] 3 blank).1.toOption = some ())
  have hall := touch_creates plainEnv_reliable wellFormed_zero (c := [97])
    (by decide) (by decide) (by decide) (by decide) h
  exact ⟨_, h, hall.1, hall.2.1⟩

end RojocOS.Fs
