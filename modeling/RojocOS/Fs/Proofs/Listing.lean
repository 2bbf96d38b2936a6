/-
Lookup against listing.

`follow_node` looks at all 32 slots of a node, `fs_readdir_next` hands
out the first `children_count`. The two agree in a directory that is
`DirOk`, and all sixteen nodes stay `DirOk` through any creations and
through the removals that are clean.

Nothing is assumed about which nodes are in use: a removal may leak the
nodes below the removed one, and a creation may take any node.
-/
import RojocOS.Fs.Proofs.Remove

namespace RojocOS.Fs

open ByteMap Prog

variable {E : FsEnv} {disk m : ByteMap} {u i a k n n' u' x : Nat} {cs : List Path}
  {name' par' : Path} {op : FsOp}
variable {c name p par : Path} {v y : Nat} {w : FsWorld}

/-- The table entry of inode `v` lies outside the nodes. -/
def OffNodes (v : Nat) : Prop := v < 231 ∨ 292 < v

instance (v : Nat) : Decidable (OffNodes v) := inferInstanceAs (Decidable (_ ∨ _))

/-- Every node is a directory in order, and releasing its inode stays
out of the nodes. -/
def NodesOk (disk : ByteMap) : Prop :=
  ∀ y < 16, DirOk (nodeAt disk y) ∧ OffNodes (Node.value (nodeAt disk y))

-- ==== lookups

theorem DirOk.edge_lt (h : DirOk (nodeAt disk u)) (h0 : 0 ∉ c)
    (hl : c.length < 32) (he : edge disk u c = some v) : v < 16 := by
  obtain ⟨j, hj, rfl⟩ := Option.map_eq_some_iff.mp he
  by_cases hc : c = []
  · subst hc
    obtain ⟨h32, hname, -⟩ := (findEdge_eq_some h0 hl).mp hj
    rcases Nat.lt_or_ge j (Node.count (nodeAt disk u)) with hlt | hge
    · exact absurd hname (h.name j hlt).1
    · rcases h.rest j hge h32 with hv | ⟨l, hl, hsame⟩
      · rw [hv.2]
        decide
      · exact absurd (hsame.trans hname) (h.name l hl).1
  · exact (h.index j ((h.findEdge ⟨hc, h0, hl⟩).mp hj).1).2

theorem NodesOk.lookup_lt (h : NodesOk disk) :
    ∀ {u v}, u < 16 → (∀ c ∈ cs, 0 ∉ c) → lookup disk u cs = .ok v → v < 16 := by
  induction cs with
  | nil =>
    intro u v hu _ hl
    cases hl
    exact hu
  | cons c cs ih =>
    intro u v hu h0 hl
    rw [lookup] at hl
    split at hl
    · cases hl
    · next hlen =>
        split at hl
        · cases hl
        · next x he =>
            refine ih ?_ (fun d hd => h0 d (.tail _ hd)) hl
            exact (h u hu).1.edge_lt (h0 c (.head _)) (by omega) he

-- ==== the steps

theorem NodesOk.touch (h : NodesOk disk)
    (ht : TouchOk disk par name u k) (hu : u < 16) (hn : Label name)
    (hv : OffNodes v) (hv32 : v < 2 ^ 32) : NodesOk (touchDisk disk u k name v) := by
  intro y hy
  by_cases hyk : y = k
  · rw [hyk, touchDisk_new]
    exact ⟨newNode_dirOk, by rwa [newNode_value hv32]⟩
  · rw [touchDisk_value ht.index.2 hyk hn.2.2]
    refine ⟨?_, (h y hy).2⟩
    by_cases hyu : y = u
    · subst hyu
      exact (ht.parent_add v (h y hy).1 hn hyk).1
    · rw [touchDisk_other ht.index.2 hyk hyu]
      exact (h y hy).1

/-- The value of the removed node is the one it had. -/
theorem removedValue_eq : removedValue E disk u i
    = Node.value (nodeAt disk (Node.childIndex (nodeAt disk u) i)) := by
  by_cases hx : Node.childIndex (nodeAt disk u) i = u
  · unfold removedValue
    rw [hx, removeSlot_parent, value_slice, dropChild_value]
  · exact removedValue_of_ne hx

/-- The nodes after a removal whose release stays out of them. -/
theorem removeDisk_nodes (hx : Node.childIndex (nodeAt disk u) i = x)
    (hv : OffNodes (Node.value (nodeAt disk x))) (h16 : x < 16) (hy : y < 16) :
    nodeAt (removeDisk E disk u i) y
      = if y = x then slice zero 0 1160
        else if y = u then slice (dropChild E (nodeAt disk u) i) 0 1160
        else nodeAt disk y := by
  by_cases hyx : y = x
  · subst hyx
    rw [if_pos rfl, removeDisk_removed hx h16]
  · have hun : nodeAt (removeUnref E disk u i) y = nodeAt (removeSlot E disk u i) y := by
      apply nodeAt_congr
      intro a h1 h2
      unfold removeUnref
      split
      · rw [removedValue_eq, hx]
        unfold unrefDisk entryAddr
        unfold OffNodes at hv
        exact copy_of_not_mem (by omega)
      · rfl
    unfold removeDisk
    rw [if_neg hyx, hx, nodeAt_copy_usage _ _ _ h16, nodeAt_copy_other hyx, hun]
    by_cases hyu : y = u
    · subst hyu
      rw [if_pos rfl, removeSlot_parent]
    · rw [if_neg hyu, removeSlot_other hyu]

theorem NodesOk.remove (h : NodesOk disk) (hu : u < 16)
    (hi : i < Node.count (nodeAt disk u)) (hclean : CleanSlot E (nodeAt disk u) i) :
    NodesOk (removeDisk E disk u i) := by
  have h16 := ((h u hu).1.index i hi).2
  intro y hy
  rw [removeDisk_nodes rfl (h _ h16).2 h16 hy]
  split
  · exact ⟨clearedNode_dirOk, .inl (by decide)⟩
  · split
    · refine ⟨dirOk_slice ((h u hu).1.drop hi hclean).1, ?_⟩
      rw [value_slice, dropChild_value]
      exact (h u hu).2
    · exact h y hy

theorem NodesOk.zero : NodesOk ByteMap.zero := by
  intro y _
  refine ⟨wellFormed_zero.treeOk.dir 0 (.inl rfl) |>.congr ?_ ?_, ?_⟩
  · rw [nodeAt_zero, nodeAt_zero]
  · intro j _ b _
    rw [nodeAt_zero, nodeAt_zero]
  · rw [nodeAt_zero]
    exact .inl (by decide)

-- ==== the runs

/-- A creation or a removal by a real name of at most 30 bytes. -/
def NamedOp : FsOp → Prop
  | .touch p v => NamedPath p ∧ (lastPart p).length ≤ 30 ∧ v < 2 ^ 32
  | .remove p => NamedPath p ∧ (lastPart p).length ≤ 30
  | _ => False

instance (op : FsOp) : Decidable (NamedOp op) :=
  match op with
  | .touch _ _ => inferInstanceAs (Decidable (_ ∧ _))
  | .remove _ => inferInstanceAs (Decidable (_ ∧ _))
  | .allocInode => .isFalse id
  | .write _ _ _ _ => .isFalse id
  | .read _ _ _ _ => .isFalse id

/-- The slot a removal finds, if any, is a clean one. -/
def FindsClean (E : FsEnv) (w : FsWorld) (p : Path) : Prop :=
  ∀ par name u i, splitPath p = pure (par, name) →
    RemoveOk w.disk par name u i → CleanSlot E (nodeAt w.disk u) i

/-- A creation gives no inode whose table entry would overlap the nodes,
and a removal finds a clean slot. -/
def ListingStep (E : FsEnv) (w : FsWorld) (op : FsOp) : Prop :=
  NamedOp op ∧ match op with
    | .touch _ v => OffNodes v
    | .remove p => FindsClean E w p
    | _ => True

/-- The parent found by a path without NUL is one of the nodes. -/
theorem NodesOk.parent_lt (h : NodesOk disk) (hp : NamedPath p)
    (hs : splitPath p = pure (par, name))
    (hl : lookup disk 0 (pathParts par) = .ok u) : u < 16 :=
  h.lookup_lt (by decide) (fun _ hc hx => (hp.split hs).1 (mem_of_mem_pathParts hc hx)) hl

theorem exec_nodesOk (hE : E.Reliable) (h : NodesOk w.disk) (hc : ListingStep E w op)
    (hret : returned (op.exec E w).1) : NodesOk (op.exec E w).2.disk := by
  cases op with
  | touch p v =>
    obtain ⟨⟨hp, -, hv32⟩, hv⟩ := hc
    rcases exec_touch_cases hE p v w with ⟨par, name, u, k, hs, ht, hw⟩ | hw
    · rw [hw.disk_eq]
      obtain ⟨-, hne, h0⟩ := hp.split hs
      exact h.touch ht (h.parent_lt hp hs ht.parent) ⟨hne, h0, ht.short⟩ hv hv32
    · rw [hw.disk_eq]
      exact h
  | remove p =>
    obtain ⟨⟨hp, -⟩, hclean⟩ := hc
    rcases exec_remove_cases hE hret with ⟨par, name, u, i, hs, hr, hw⟩ | hw
    · rw [hw.disk_eq]
      exact h.remove (h.parent_lt hp hs hr.parent) hr.slot.1 (hclean par name u i hs hr)
    · rw [hw.disk_eq]
      exact h
  | allocInode => exact hc.1.elim
  | write => exact hc.1.elim
  | read => exact hc.1.elim

/-- `follow_node` finds `c` in node `y`. -/
def Finds (E : FsEnv) (w : FsWorld) (y : Nat) (c : Path) : Prop :=
  ∃ r w', followNode E fsdesc (nodeAt w.disk y) c w = (.ok r, w')

/-- `c` is one of the `children_count` names `fs_readdir_next` returns
for node `y`. -/
def Lists (E : FsEnv) (w : FsWorld) (y : Nat) (c : Path) : Prop :=
  ∃ k < (Node.childrenCount (nodeAt w.disk y)).toNat, ∃ m w',
    fsReaddirNext E fsdesc y k w = (.ok m, w')
      ∧ cstr m 0 (1160 - Node.nameAt k) = c

/-- A string that ends early is not changed by reading on. -/
theorem cstr_of_length_lt (h : (cstr m a n).length < n)
    (hn : n ≤ n') : cstr m a n' = cstr m a n := by
  have hself := (equalToBuffer_iff (zero_not_mem_cstr m a n) h).mpr rfl
  exact (equalToBuffer_iff (zero_not_mem_cstr m a n) (Nat.lt_of_lt_of_le h hn)).mp hself

theorem DirOk.finds (hE : E.Reliable) (h : DirOk (nodeAt w.disk y)) (hc : Label c) :
    Finds E w y c ↔ ∃ k < Node.count (nodeAt w.disk y),
      Node.slotName (nodeAt w.disk y) k = c := by
  have hfol := followNode_edge hE y c w
  constructor
  · rintro ⟨r, w', hr⟩
    cases he : edge w.disk y c with
    | none =>
      rw [hr, he] at hfol
      cases hfol
    | some v =>
      rw [← child_of_label hc] at he
      obtain ⟨-, k, hk, hname, -⟩ := h.child_eq_some.mp he
      exact ⟨k, hk, hname⟩
  · rintro ⟨k, hk, hname⟩
    have he := h.child_eq_some.mpr ⟨hc, k, hk, hname, rfl⟩
    rw [child_of_label hc] at he
    rw [he] at hfol
    exact ⟨_, _, hfol⟩

theorem DirOk.lists (hE : E.Reliable) (hy : y < 16) (h : DirOk (nodeAt w.disk y)) :
    Lists E w y c ↔ ∃ k < Node.count (nodeAt w.disk y),
      Node.slotName (nodeAt w.disk y) k = c := by
  have hle := h.count_le
  -- what the call hands out is the name in the slot
  have hnext : ∀ k < Node.count (nodeAt w.disk y), ∃ m w',
      fsReaddirNext E fsdesc y k w = (.ok m, w')
        ∧ cstr m 0 (1160 - Node.nameAt k) = Node.slotName (nodeAt w.disk y) k := by
    intro k hk
    have h32 : ¬ 32 ≤ k := by omega
    refine ⟨slice (nodeAt w.disk y) (Node.nameAt k) (1160 - Node.nameAt k),
      { w with io := w.io + 1 }, ?_, ?_⟩
    · unfold fsReaddirNext
      rw [bind_of_ok (fsdr_node hE (by omega) w), failIf_bind h32]
      rfl
    · have hs : cstr (nodeAt w.disk y) (Node.nameAt k) (1160 - Node.nameAt k)
          = Node.slotName (nodeAt w.disk y) k :=
        cstr_of_length_lt (h.name k hk).2 (by unfold Node.nameAt; omega)
      rw [← hs]
      apply cstr_congr
      intro j hj
      rw [slice_of_lt (by omega), Nat.zero_add]
  constructor
  · rintro ⟨k, hk, m, w', hm, hc⟩
    obtain ⟨m', w'', hm', hc'⟩ := hnext k hk
    rw [hm'] at hm
    cases hm
    exact ⟨k, hk, hc'.symm.trans hc⟩
  · rintro ⟨k, hk, hc⟩
    obtain ⟨m, w', hm, hc'⟩ := hnext k hk
    exact ⟨k, hk, m, w', hm, hc'.trans hc⟩

/-- In every state of such a run, lookup and listing agree on every
node and every name. -/
theorem lookup_iff_listed (hE : E.Reliable) {w : FsWorld}
    (hrun : FsRun E (ListingStep E) (start E) w) {y : Nat} (hy : y < 16)
    {c : Path} (hc : Name c) (hlen : c.length ≤ 30) : Finds E w y c ↔ Lists E w y c := by
  have h : NodesOk w.disk := FsRun.invariant E (fun w => NodesOk w.disk)
    (fun _ _ ih hs hr => exec_nodesOk hE ih hs hr)
    (by rw [start_disk]; exact NodesOk.zero) hrun
  rw [(h y hy).1.finds hE ⟨hc.1, hc.2.2, by omega⟩, (h y hy).1.lists hE hy]

-- ==== two small runs

/-- A condition on the slot a removal finds, from what can be evaluated. -/
theorem RemoveOk.check {P : Nat → Nat → Prop} (hs : splitPath p = pure (par, name))
    (hl : (lookup w.disk 0 (pathParts par)).toOption = some u)
    (hchk : ∀ i < 32, Holds (nodeAt w.disk u) name i → P u i)
    (hs' : splitPath p = pure (par', name')) (hr : RemoveOk w.disk par' name' u' i) : P u' i := by
  obtain ⟨rfl, rfl⟩ := Prod.mk.inj (pure_inj w (hs.symm.trans hs'))
  obtain rfl : u' = u := Except.ok.inj (hr.parent.symm.trans (ok_of_toOption hl))
  exact hchk i hr.slot.2 hr.holds

/-- `/a` and `/b` created. -/
def abOps : List FsOp := [.touch [47, 97] 0, .touch [47, 98] 0]

/-- `/a` and `/b` created, `/b` removed: only `a` is listed, and found. -/
theorem lookup_iff_listed_lastRemoved :
    let w := runAll plainEnv (start plainEnv) (abOps ++ [.remove [47, 98]])
    FsRun plainEnv (ListingStep plainEnv) (start plainEnv) w
      ∧ (Finds plainEnv w 0 [97] ↔ Lists plainEnv w 0 [97]) := by
  intro w
  have hrun : FsRun plainEnv (ListingStep plainEnv) (start plainEnv) w := by
    apply runAll_run
    refine ⟨⟨by decide, by decide⟩, by decide +kernel,
      ⟨by decide, by decide⟩, by decide +kernel,
      ⟨by decide, fun _ _ _ _ => ?_⟩, by decide +kernel, trivial⟩
    exact RemoveOk.check (u := 0) (P := fun u i => CleanSlot plainEnv (nodeAt _ u) i)
      (splitPath_eq [] (by decide)) (by decide +kernel) (by decide +kernel)
  exact ⟨hrun, lookup_iff_listed plainEnv_reliable hrun (by decide)
    (by decide) (by decide)⟩

/-- `/a` and `/b` created, `/a` removed: `b` is found in the root and not
listed. -/
theorem found_but_not_listed :
    let w := runAll plainEnv (start plainEnv) (abOps ++ [.remove [47, 97]])
    FsRun plainEnv (fun _ op => NamedOp op) (start plainEnv) w
      ∧ Finds plainEnv w 0 [98] ∧ ¬ Lists plainEnv w 0 [98] := by
  intro w
  refine ⟨?_, ?_, ?_⟩
  · apply runAll_run
    exact ⟨by decide, by decide +kernel, by decide, by decide +kernel,
      by decide, by decide +kernel, trivial⟩
  · have hfol := followNode_edge plainEnv_reliable 0 [98] w
    rw [show edge w.disk 0 [98] = some 2 by decide +kernel] at hfol
    exact ⟨_, _, hfol⟩
  · rintro ⟨k, hk, m, w', hm, hc⟩
    have hone : (Node.childrenCount (nodeAt w.disk 0)).toNat = 1 := by
      decide +kernel
    obtain rfl : k = 0 := by omega
    have ha : (fsReaddirNext plainEnv fsdesc 0 0 w).1.toOption.map
        (fun m => cstr m 0 (1160 - Node.nameAt 0)) = some [97] := by
      decide +kernel
    rw [hm] at ha
    exact absurd (hc.symm.trans (Option.some.inj ha)) (by decide)

end RojocOS.Fs
