/-
The directory tree over runs of `sys_mkdir`, `sys_touch` and
`sys_remove`.

Two results about every state such a run can reach.

- The root (`root_stable`): `/` resolves to node 0 as long as no call
  creates an entry with an empty name. How directories are left by
  removals does not matter.
- Node accounting (`used_iff_one_path`): a node is in use exactly when
  one path leads to it, as long as removals are also clean and take
  childless nodes.
-/
import RojocOS.Kernel.FileCalls
import RojocOS.Fs.Proofs.Steady

namespace RojocOS.Kernel

open Fs Graph Prog

variable {E : FsEnv} {disk' : ByteMap} {i k v : Nat} {name par : Path}
variable {w : FsWorld} {c : FileCall} {disk : ByteMap} {u : Nat}

-- ==== one call at a time

/-- A call that runs is one of the three operations on its target. -/
theorem FileCall.exec_cases (c : FileCall) (w : FsWorld) :
    (c.exec E w = (.error .wild, w)) ∨ c.exec E w = c.op.apply E c.target w := by
  unfold FileCall.exec
  by_cases hl : tooLong c.cwd c.path
  · left
    rw [bind_of_error (failIf_of hl)]
  · right
    rw [failIf_bind hl]

/-- What is to be shown of a call, operation by operation: a creation
with an inode of the table, and a removal. -/
theorem FileCall.exec_induct {P : FsWorld → Prop}
    (hE : E.Reliable) (hw : P w) (hr : Answered (c.exec E w).1)
    (halloc : ∀ w', (∀ a, 4876 ≤ a → w'.disk a = w.disk a) → P w')
    (htouch : c.op ≠ .remove → ∀ w' v, P w' → v < 16 →
      P (fsTouch E fsdesc c.target v w').2)
    (hremove : c.op = .remove → (fsRemove E fsdesc c.target w).1 ≠ .error .panic →
      P (fsRemove E fsdesc c.target w).2) : P (c.exec E w).2 := by
  rcases c.exec_cases w with hx | hx
  · rw [hx]
    exact hw
  rw [hx] at hr ⊢
  cases hop : c.op with
  | mkdir => exact htouch (by rw [hop]; decide) w 0 hw (by decide)
  | touch =>
    obtain ⟨hkeep, hino⟩ := fsAllocInode_effect hE w
    have hmid := halloc _ hkeep
    show P ((fsAllocInode E fsdesc >>= fun inode =>
      fsTouch E fsdesc c.target (u32 inode)) w).2
    rcases ha : fsAllocInode E fsdesc w with ⟨r, w1⟩
    rw [ha] at hmid hino
    cases r with
    | error e =>
      rw [bind_of_error ha]
      exact hmid
    | ok i =>
      rw [bind_of_ok ha]
      have hi := hino i rfl
      refine htouch (by rw [hop]; decide) w1 _ hmid ?_
      rw [show u32 i = i from Nat.mod_eq_of_lt (by omega)]
      exact hi.2
  | remove =>
    rw [hop] at hr
    refine hremove hop fun hp => ?_
    have hp' : (FileOp.remove.apply E c.target w).1 = .error .panic := hp
    rw [hp'] at hr
    exact hr

-- ==== the root

/-- A creation names something: its path does not resolve to `/`. -/
def Names (_ : FsWorld) (c : FileCall) : Prop :=
  c.Strings ∧ (c.op ≠ .remove → lastPart c.target ≠ [])

instance (w : FsWorld) (c : FileCall) : Decidable (Names w c) :=
  inferInstanceAs (Decidable (_ ∧ _))

theorem exec_steady (hE : E.Reliable)
    (h : Steady w.disk) (hc : Names w c) (hr : Answered (c.exec E w).1) :
    Steady (c.exec E w).2.disk := by
  refine FileCall.exec_induct (P := fun w => Steady w.disk) hE h hr ?_ ?_ ?_
  · exact fun w' hw' => h.congr fun a ha => hw' a (by unfold TreeByte at ha; omega)
  · exact fun hop w' v hw' hv => fsTouch_steady hE hw' ⟨hc.1.target, hc.2 hop⟩ hv
  · exact fun _ hp => fsRemove_steady hE h _ hp

/-- In every state of a run whose creations have names, `search_node("/")`
returns node 0. -/
theorem root_stable (hE : E.Reliable) {w : FsWorld} (hrun : CallRun E Names (start E) w) :
    ∃ nd, (searchNode E fsdesc [slash] w).1 = .ok (0, nd) := by
  have h : Steady w.disk := CallRun.invariant E (fun w => Steady w.disk)
    (fun _ _ ih hs hr => exec_steady hE ih hs hr)
    (by rw [start_disk]; exact Steady.zero) hrun
  obtain ⟨n, hs⟩ := searchNode_lookup hE (p := [slash]) rfl w
  rw [h.lookup_root] at hs
  exact ⟨_, congrArg Prod.fst hs⟩

/-- `mkdir("a")`, `mkdir("b")` and `rm("a")` in `/`: a removal that leaves
the root in disorder. -/
def disorderlyCalls : List FileCall :=
  [⟨.mkdir, [47], [97]⟩, ⟨.mkdir, [47], [98]⟩, ⟨.remove, [47], [97]⟩]

theorem root_stable_disorderly :
    let w := runCalls plainEnv (start plainEnv) disorderlyCalls
    CallRun plainEnv Names (start plainEnv) w
      ∧ ∃ nd, (searchNode plainEnv fsdesc [slash] w).1 = .ok (0, nd) := by
  intro w
  have hrun : CallRun plainEnv Names (start plainEnv) w := by
    apply runCalls_run
    exact ⟨by decide, by decide +kernel, by decide, by decide +kernel,
      by decide, by decide +kernel, trivial⟩
  exact ⟨hrun, root_stable plainEnv_reliable hrun⟩

/-- After `mkdir("/")` on the all-zero disk, `/` is node 1. -/
theorem root_moves :
    let w := runCalls plainEnv (start plainEnv) [⟨.mkdir, [47], [47]⟩]
    CallRun plainEnv (fun _ c => c.Strings) (start plainEnv) w
      ∧ ∃ nd, (searchNode plainEnv fsdesc [slash] w).1 = .ok (1, nd) := by
  intro w
  refine ⟨?_, ?_⟩
  · apply runCalls_run
    exact ⟨by decide, by decide +kernel, trivial⟩
  · have h := searchNode_lookup plainEnv_reliable (p := [slash]) rfl w
    have hl : lookup w.disk 0 (pathParts [slash]) = .ok 1 :=
      ok_of_toOption (by decide +kernel)
    obtain ⟨n, hs⟩ := h
    rw [hl] at hs
    exact ⟨_, congrArg Prod.fst hs⟩

-- ==== node accounting

/-- A tree in which every used node is reached, and whose files have
inodes of the table. -/
structure Accounted (disk : ByteMap) : Prop where
  tree : TreeOk disk
  reached : ∀ x, Used disk x → ∃ cs, walk (child disk) 0 cs = some x
  value : ∀ u, Dir disk u → Node.value (nodeAt disk u) < 16

theorem Accounted.dir_reached (h : Accounted disk)
    (hu : Dir disk u) : ∃ cs, walk (child disk) 0 cs = some u := by
  rcases hu with rfl | hu
  · exact ⟨[], rfl⟩
  · exact h.reached u hu

theorem Accounted.congr (h : Accounted disk)
    (hsame : ∀ a, TreeByte a → disk' a = disk a) : Accounted disk' := by
  have hnode : ∀ y < 16, nodeAt disk' y = nodeAt disk y :=
    fun y hy => nodeAt_congr fun a h1 h2 => hsame a (.inr (by omega))
  have hused : ∀ x, Used disk' x ↔ Used disk x := by
    intro x
    unfold Used
    by_cases hx : x < 16
    · rw [hsame _ (.inl (by omega))]
    · exact ⟨fun h => absurd h.2.1 hx, fun h => absurd h.2.1 hx⟩
  have hdir : ∀ u, Dir disk' u ↔ Dir disk u := fun u => or_congr Iff.rfl (hused u)
  have hrefers : ∀ r x, Refers disk' r x ↔ Refers disk r x := by
    intro r x
    unfold Refers
    rw [hdir]
    constructor
    · rintro ⟨hd, h2⟩
      rw [hnode r.1 hd.lt] at h2
      exact ⟨hd, h2⟩
    · rintro ⟨hd, h2⟩
      rw [hnode r.1 hd.lt]
      exact ⟨hd, h2⟩
  have hwalk : ∀ cs {u v}, Dir disk u → walk (child disk) u cs = some v →
      walk (child disk') u cs = some v := by
    intro cs
    induction cs with
    | nil => exact fun _ hw => hw
    | cons c cs ih =>
      intro u v hu hw
      rw [walk_cons, Option.bind_eq_some_iff] at hw ⊢
      obtain ⟨x, hx, hw⟩ := hw
      refine ⟨x, ?_, ih (h.tree.arbor.closed hu hx) hw⟩
      rw [child_congr (hnode u hu.lt)]
      exact hx
  refine ⟨⟨?_, ?_, ?_, ?_⟩, ?_, ?_⟩
  · intro u hu
    have hu := (hdir u).mp hu
    rw [hnode u hu.lt]
    exact h.tree.dir u hu
  · intro u hu
    have hu := (hdir u).mp hu
    rw [hnode u hu.lt]
    exact fun i hi => (hused _).mpr (h.tree.used u hu i hi)
  · intro u hu
    have hu := (hdir u).mp hu
    rw [hnode u hu.lt]
    exact h.tree.spare u hu
  · intro x hx
    simp only [hrefers]
    exact h.tree.once x ((hused x).mp hx)
  · intro x hx
    obtain ⟨cs, hcs⟩ := h.reached x ((hused x).mp hx)
    exact ⟨cs, hwalk cs (.inl rfl) hcs⟩
  · intro u hu
    have hu := (hdir u).mp hu
    rw [hnode u hu.lt]
    exact h.value u hu

theorem Accounted.zero : Accounted ByteMap.zero := by
  refine ⟨wellFormed_zero.treeOk, fun x hx => absurd rfl hx.2.2, fun u _ => ?_⟩
  rw [nodeAt_zero]
  decide

theorem Accounted.touch (h : Accounted disk)
    (ht : TouchOk disk par name u k) (hu : Dir disk u)
    (hn : Label name) (hv : v < 16) : Accounted (touchDisk disk u k name v) := by
  obtain ⟨ps, hps⟩ := h.dir_reached hu
  have hgraft := h.tree.touch_graft ht v hu hn
  refine ⟨h.tree.touch ht v hu hn, ?_, ?_⟩
  · intro x hx
    rcases (touchDisk_used ht).mp hx with hx | rfl
    · obtain ⟨cs, hcs⟩ := h.reached x hx
      exact ⟨cs, hgraft.walk_old h.tree.arbor hps hcs⟩
    · exact ⟨ps ++ [name], hgraft.walk_leaf h.tree.arbor hps⟩
  · intro y hy
    by_cases hyk : y = k
    · rw [hyk, touchDisk_new, newNode_value (by omega)]
      exact hv
    · rw [touchDisk_value ht.index.2 hyk hn.2.2]
      exact h.value y (((touchDisk_dir ht).mp hy).resolve_right hyk)

theorem Accounted.remove (h : Accounted disk)
    (hr : CleanRemoval E disk u i) : Accounted (removeDisk E disk u i) := by
  have htree := h.tree.remove hr
  have hgraft := h.tree.remove_graft hr
  refine ⟨htree, ?_, ?_⟩
  · intro x hx
    obtain ⟨hold, hne⟩ := (hr.used_iff h.tree).mp hx
    obtain ⟨cs, hcs⟩ := h.reached x hold
    exact ⟨cs, hgraft.walk_cut htree.arbor (.inl rfl) hne hcs⟩
  · intro y hy
    obtain ⟨hold, hne⟩ := (hr.dir_iff h.tree).mp hy
    by_cases hyu : y = u
    · rw [hyu, hr.node_parent h.tree, value_slice, dropChild_value]
      exact h.value u hr.dir
    · rw [hr.node_other h.tree hold.lt hyu hne]
      exact h.value y hold

/-- A creation names something, and the slot a removal finds is a clean
one whose node has no children. -/
def Tidies (E : FsEnv) (w : FsWorld) (c : FileCall) : Prop :=
  Names w c ∧ (c.op = .remove → ∀ par name u i,
    splitPath c.target = pure (par, name) → RemoveOk w.disk par name u i →
      CleanSlot E (nodeAt w.disk u) i
        ∧ Leaf w.disk (Node.childIndex (nodeAt w.disk u) i))

theorem exec_accounted (hE : E.Reliable)
    (h : Accounted w.disk) (hc : Tidies E w c) (hr : Answered (c.exec E w).1) :
    Accounted (c.exec E w).2.disk := by
  have h0 := hc.1.1.target
  refine FileCall.exec_induct (P := fun w => Accounted w.disk) hE h hr ?_ ?_ ?_
  · exact fun w' hw' => h.congr fun a ha => hw' a (by unfold TreeByte at ha; omega)
  · intro hop w' v hw' hv
    rcases fsTouch_effect hE hw'.tree ⟨h0, hc.1.2 hop⟩ v with
      hd | ⟨par, name, u, k, -, ht, hu, hn, hd⟩
    · rw [hd]
      exact hw'
    · rw [hd]
      exact hw'.touch ht hu hn hv
  · intro hop hp
    rcases fsRemove_cases hE c.target w with
      ⟨par, name, u, i, hs, hok, ⟨-, -, hw⟩ | ⟨-, hpanic⟩⟩ | ⟨-, hw, -⟩
    · rw [hw.disk_eq]
      obtain ⟨hclean, hleaf⟩ := hc.2 hop par name u i hs hok
      have hpar : 0 ∉ par := fun hx => h0 ((splitPath_last hs).2.1 0 hx)
      have hu : Dir w.disk u := h.tree.lookup_dir (.inl rfl)
        (fun _ hd hx => hpar (mem_of_mem_pathParts hd hx)) hok.parent
      have hused := h.tree.used u hu i hok.slot.1
      exact h.remove ⟨hu, hok.slot.1, hclean, hleaf, .inl (h.value _ (.inr hused))⟩
    · exact absurd hpanic hp
    · rw [hw.disk_eq]
      exact h

/-- A node is in use exactly when one path leads to it, in every state of
a run that meets the condition. -/
theorem used_iff_one_path (hE : E.Reliable) {w : FsWorld}
    (hrun : CallRun E (Tidies E) (start E) w) {i : Nat} (hi : 1 ≤ i ∧ i < 16) :
    w.disk (fsdesc.treeUsageOffset + i) ≠ 0
      ↔ ∃! cs, walk (child w.disk) 0 cs = some i := by
  have h : Accounted w.disk := CallRun.invariant E (fun w => Accounted w.disk)
    (fun _ _ ih hs hr => exec_accounted hE ih hs hr)
    (by rw [start_disk]; exact Accounted.zero) hrun
  constructor
  · intro hb
    obtain ⟨cs, hcs⟩ := h.reached i ⟨hi.1, hi.2, hb⟩
    exact ⟨cs, hcs, fun cs' hcs' => h.tree.arbor.walk_inj hcs' hcs⟩
  · rintro ⟨cs, hcs, -⟩
    rcases h.tree.arbor.walk_mem (.inl rfl) hcs with h0 | hu
    · omega
    · exact hu.2.2

/-- `mkdir("a")`, `mkdir("b")` and `rm("b")` in `/`. -/
def lastRemovedCalls : List FileCall :=
  [⟨.mkdir, [47], [97]⟩, ⟨.mkdir, [47], [98]⟩, ⟨.remove, [47], [98]⟩]

theorem used_iff_one_path_lastRemoved :
    let w := runCalls plainEnv (start plainEnv) lastRemovedCalls
    CallRun plainEnv (Tidies plainEnv) (start plainEnv) w
      ∧ (w.disk (fsdesc.treeUsageOffset + 1) ≠ 0
        ↔ ∃! cs, walk (child w.disk) 0 cs = some 1) := by
  intro w
  have hrun : CallRun plainEnv (Tidies plainEnv) (start plainEnv) w := by
    apply runCalls_run
    refine ⟨⟨by decide, fun h => absurd h (by decide)⟩, by decide +kernel,
      ⟨by decide, fun h => absurd h (by decide)⟩, by decide +kernel,
      ?_, by decide +kernel, trivial⟩
    exact ⟨by decide, fun _ _ _ _ _ => RemoveOk.check (u := 0)
      (P := fun u i => CleanSlot plainEnv (nodeAt _ u) i
        ∧ Node.count (nodeAt _ (Node.childIndex (nodeAt _ u) i)) = 0)
      (splitPath_eq [] (by decide)) (by decide +kernel) (by decide +kernel)⟩
  exact ⟨hrun, used_iff_one_path plainEnv_reliable hrun (by decide)⟩

/-- `mkdir("a")`, `mkdir("a/b")` and `rm("a")` in `/`. -/
def parentRemovedCalls : List FileCall :=
  [⟨.mkdir, [47], [97]⟩, ⟨.mkdir, [47], [97, 47, 98]⟩, ⟨.remove, [47], [97]⟩]

/-- Node 2, which was `/a/b`, stays in use, and no path leads to it. -/
theorem removed_parent_leaks :
    let w := runCalls plainEnv (start plainEnv) parentRemovedCalls
    CallRun plainEnv (fun _ c => c.Strings) (start plainEnv) w
      ∧ w.disk (fsdesc.treeUsageOffset + 2) ≠ 0
      ∧ ¬ ∃ cs, walk (child w.disk) 0 cs = some 2 := by
  intro w
  refine ⟨?_, by decide +kernel, ?_⟩
  · apply runCalls_run
    exact ⟨by decide, by decide +kernel, by decide, by decide +kernel,
      by decide, by decide +kernel, trivial⟩
  · rintro ⟨cs, hcs⟩
    -- the root has no named slot left
    have hempty : ∀ i < 32, Node.slotName (nodeAt w.disk 0) i = [] := by
      decide +kernel
    cases cs with
    | nil => cases hcs
    | cons c cs =>
        rw [walk_cons, Option.bind_eq_some_iff] at hcs
        obtain ⟨x, hx, -⟩ := hcs
        unfold child at hx
        split at hx
        · next hc =>
            obtain ⟨i, hi, -⟩ := Option.map_eq_some_iff.mp hx
            obtain ⟨h32, hname, -⟩ := (findEdge_eq_some hc.2.1 hc.2.2).mp hi
            exact hc.1 (hname.symm.trans (hempty i h32))
        · cases hx

end RojocOS.Kernel
