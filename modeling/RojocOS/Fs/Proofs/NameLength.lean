/-
The two limits on the length of a name.

A slot has 32 bytes for a name and its NUL, so the longest name it holds
has 31. `fs_touch` asserts that the last component is shorter than 32
before it looks at anything, so a longer one stops the kernel instead of
coming back as an error. `search_node` gives up with `-ENAMETOOLONG` once
it has copied 31 bytes, so it follows names of up to 30. A name of
exactly 31 bytes passes the first test and not the second: it is stored,
counted and marked used, and no path leads to it.

`touch_resolves_iff` is exact: on a well-formed tree the call does what
it should if the name has at most 30 bytes, or if it has 31 and is
refused for another reason.
-/
import RojocOS.Fs.Proofs.Create
import RojocOS.Fs.Proofs.Refusal

namespace RojocOS.Fs

open ByteMap Graph Prog

variable {E : FsEnv} {disk : ByteMap} {w w' : FsWorld} {p par name : Path} {u k v x : Nat}
  {cs : List Path}

-- ==== the claim

/-- `fs_touch` comes back with a negative error, or the path leads to the
node it made. -/
def TouchResolves (E : FsEnv) (p : Path) (v : Nat) (w : FsWorld) : Prop :=
  (∃ c w', fsTouch E fsdesc p v w = (.error (.err c), w') ∧ c < 0)
    ∨ ∃ w' k nd, fsTouch E fsdesc p v w = (.ok (), w')
        ∧ (searchNode E fsdesc p w').1 = .ok (k, nd) ∧ Node.value nd = v
        ∧ Node.childrenCount nd = 0

-- ==== creation

/-- `/` has an empty last component. Once stored it is the first empty
name in the root, so from then on `/` leads to it. -/
theorem TreeOk.touch_root (h : TreeOk disk) (ht : TouchOk disk [slash] [] u k)
    (v : Nat) : lookup (touchDisk disk u k [] v) 0 (pathParts [slash]) = .ok k := by
  have hu : u = 0 := by
    have := ht.parent
    rw [h.lookup_root] at this
    cases this
    rfl
  subst hu
  have hd := h.dir 0 (.inl rfl)
  obtain ⟨hk1, hk16⟩ := ht.index
  have hnode : nodeAt (touchDisk disk 0 k [] v) 0
      = slice (addChild (nodeAt disk 0) (Node.count (nodeAt disk 0)) [] k) 0 1160 :=
    touchDisk_parent hk16 (by omega)
  have hcount : Node.count (nodeAt disk 0) < 32 := by
    have := ht.room
    unfold Node.count
    omega
  have hname : ∀ i < 32, Node.slotName (nodeAt (touchDisk disk 0 k [] v) 0) i
      = Node.slotName (addChild (nodeAt disk 0) (Node.count (nodeAt disk 0)) [] k) i := by
    intro i hi
    rw [hnode]
    exact (sameSlot_slice hi).name
  have hfind : findEdge (nodeAt (touchDisk disk 0 k [] v) 0) []
      = some (Node.count (nodeAt disk 0)) := by
    refine (findEdge_eq_some (by simp) (by decide)).mpr ⟨hcount, ?_, fun j hj => ?_⟩
    · rw [hname _ hcount]
      exact addChild_name (by simp) (by decide)
    · rw [hname j (by omega), (addChild_other (by decide) (by omega)).name]
      exact (hd.name j hj).1
  have hidx : Node.childIndex (nodeAt (touchDisk disk 0 k [] v) 0)
      (Node.count (nodeAt disk 0)) = k := by
    rw [hnode, (sameSlot_slice hcount).index]
    exact addChild_index (by omega)
  show lookup _ 0 [[]] = .ok k
  rw [lookup, if_neg (by decide), edge, hfind, Option.map_some, hidx]
  rfl

-- ==== the limits

/-- A longer name fails the assertion. -/
theorem fsTouch_long (hs : splitPath p = pure (par, name))
    (hlen : ¬ name.length < 32) (v : Nat) (w : FsWorld) :
    fsTouch E fsdesc p v w = (.error .panic, w) := by
  rw [fsTouch, hs, Prog.pure_bind]
  dsimp only
  rw [bind_of_error (assert_of_not hlen)]

/-- The two forms of a normalised path. -/
theorem Normpath.cases (hp : Normpath p) (hs : splitPath p = pure (par, name)) :
    (p = [slash] ∧ par = [slash] ∧ name = [])
      ∨ ∃ cs, names p = cs ++ [name] ∧ pathParts p = cs ++ [name] := by
  rcases List.eq_nil_or_concat (names p) with hn | ⟨cs, c, hn⟩
  · have hroot : p = [slash] := by
      by_contra hne
      unfold names at hn
      rw [if_neg hne] at hn
      rcases p with - | ⟨a, q⟩
      · cases hp.1
      · exact parts_ne_nil q hn
    subst hroot
    have hsplit : splitPath [slash] = pure ([slash], []) := rfl
    obtain ⟨rfl, rfl⟩ := Prod.mk.inj (pure_inj blank (hs.symm.trans hsplit))
    exact .inl ⟨rfl, rfl, rfl⟩
  · rw [List.concat_eq_append] at hn
    have hsplit := splitPath_normpath hp hn
    obtain ⟨-, rfl⟩ := Prod.mk.inj (pure_inj blank (hs.symm.trans hsplit))
    have hne : p ≠ [slash] := by
      rintro rfl
      rw [show names [slash] = [] from rfl] at hn
      exact List.cons_ne_nil _ _ (List.append_eq_nil_iff.mp hn.symm).2
    refine .inr ⟨cs, hn, ?_⟩
    unfold names at hn
    rwa [if_neg hne] at hn

/-- No lookup gets past a name of 31 bytes. -/
theorem lookup_long (hlen : 31 ≤ name.length) : lookup disk 0 (cs ++ [name]) ≠ .ok x := by
  intro hl
  have hshort := short_of_lookup hl name (List.mem_append_right _ (.head _))
  have := of_decide_eq_true hshort
  omega

/-- A created name of at most 30 bytes is found. -/
theorem TreeOk.touch_resolves (h : TreeOk w.disk) (hE : E.Reliable) (hp : Normpath p)
    (hs : splitPath p = pure (par, name)) (hlen : name.length ≤ 30) (hv : v < 2 ^ 32)
    (hrun : fsTouch E fsdesc p v w = (.ok (), w')) : TouchResolves E p v w := by
  obtain ⟨par', name', u, k, hs', ht, hdisk⟩ := fsTouch_ok hE hrun
  obtain ⟨rfl, rfl⟩ := Prod.mk.inj (pure_inj blank (hs.symm.trans hs'))
  have hfound : lookup w'.disk 0 (pathParts p) = .ok k := by
    rw [hdisk]
    rcases hp.cases hs with ⟨rfl, rfl, rfl⟩ | ⟨cs, hn, -⟩
    · exact h.touch_root ht v
    · exact (h.touch_found hp hn hlen hs ht v).2.2.2.2
  obtain ⟨n, hsearch⟩ := searchNode_lookup hE hp.1 w'
  refine .inr ⟨w', k, nodeAt w'.disk k, hrun, ?_, ?_, ?_⟩
  · rw [hsearch, hfound]
    rfl
  · rw [hdisk, touchDisk_new, newNode_value hv]
  · rw [hdisk, touchDisk_new, newNode_count]

/-- A created name of 31 bytes is not. -/
theorem not_touch_resolves (hE : E.Reliable) (hp : Normpath p)
    (hs : splitPath p = pure (par, name)) (hlen : 31 ≤ name.length)
    (hrun : fsTouch E fsdesc p v w = (.ok (), w')) : ¬ TouchResolves E p v w := by
  rintro (⟨c, w1, herr, -⟩ | ⟨w1, k, nd, hok, hsearch, -⟩)
  · rw [hrun] at herr
    cases herr
  · obtain ⟨n, hl⟩ := searchNode_lookup hE hp.1 w1
    rw [hl] at hsearch
    rcases hp.cases hs with ⟨-, -, rfl⟩ | ⟨cs, -, hparts⟩
    · exact absurd hlen (by decide)
    · rw [hparts] at hsearch
      cases hx : lookup w1.disk 0 (cs ++ [name]) with
      | error e =>
        rw [hx] at hsearch
        cases hsearch
      | ok x => exact lookup_long hlen hx

/-- On a well-formed tree and a disk that works, for every normalised
path whose parent exists, `fs_touch` refuses it with an error or makes a
node that `search_node` finds, exactly if the last component has at most
30 bytes, or has 31 and is refused. -/
theorem touch_resolves_iff (hE : E.Reliable) (h : TreeOk w.disk) (hp : Normpath p)
    (hs : splitPath p = pure (par, name)) {nd : ByteMap}
    (hpar : (searchNode E fsdesc par w).1 = .ok (u, nd)) (hv : v < 2 ^ 32) :
    TouchResolves E p v w
      ↔ name.length ≤ 30 ∨ name.length = 31 ∧ NameRefused w.disk nd name := by
  by_cases hlen : name.length < 32
  case neg =>
    refine iff_of_false ?_ (by omega)
    rintro (⟨c, w', herr, -⟩ | ⟨w', k, nd, hok, -⟩)
    · rw [fsTouch_long hs hlen] at herr
      cases herr
    · rw [fsTouch_long hs hlen] at hok
      cases hok
  obtain ⟨hhead, hl, rfl, -⟩ := searchNode_ok hE (Prod.ext hpar rfl)
  have h0 : 0 ∉ par := by
    rcases hp.cases hs with ⟨-, rfl, -⟩ | ⟨cs, hn, -⟩
    · decide
    · rw [splitPath_normpath hp hn] at hs
      obtain ⟨rfl, -⟩ := Prod.mk.inj (pure_inj blank hs)
      intro hx
      have hsub : ∀ c ∈ cs, 0 ∉ c := fun c hc =>
        (hp.2 c (by rw [hn]; exact List.mem_append_left _ hc)).2.2
      unfold render joinNames at hx
      split at hx
      · exact absurd hx (by decide)
      · obtain ⟨c, hc, hxc⟩ := List.mem_flatMap.mp hx
        rcases List.mem_cons.mp hxc with hx0 | hx0
        · exact absurd hx0 (by decide)
        · exact hsub c hc hx0
  have hdir : Dir w.disk u := h.lookup_dir (.inl rfl)
    (fun _ hc hx => h0 (mem_of_mem_pathParts hc hx)) hl
  obtain ⟨n, hrun⟩ := fsTouch_found hE hs hhead hlen hl v
  rcases touchIn_cases hE (w := { w with io := n }) hhead hlen hl v with
    ⟨c, m, hr, hc, herr⟩ | ⟨m, -, hcount, -⟩ | ⟨k, m, ht, hok⟩
  · -- refused, so an error in any case
    refine iff_of_true (.inl ⟨c, _, hrun.trans herr, hc.2⟩) ?_
    rcases Nat.lt_or_ge name.length 31 with hlt | hge
    · exact .inl (by omega)
    · exact .inr ⟨by omega, hr⟩
  · exact absurd (h.dir u hdir).count hcount
  · have hok := hrun.trans hok
    rcases Nat.lt_or_ge name.length 31 with hlt | hge
    · exact iff_of_true (h.touch_resolves hE hp hs (by omega) hv hok) (.inl (by omega))
    · refine iff_of_false (not_touch_resolves hE hp hs hge hok) ?_
      rintro (hle | ⟨-, href⟩)
      · omega
      · exact ht.not_nameRefused href

/-- A name of `n` letters in the root. -/
def letters (n : Nat) : Path := slash :: List.replicate n 97

theorem letters_parts : pathParts (letters 31) = [List.replicate 31 97] := by decide

/-- 30 bytes on the all-zero disk. -/
theorem touch_resolves_iff_thirty : TouchResolves plainEnv (letters 30) 3 blank := by
  have htree : TreeOk blank.disk := wellFormed_zero.treeOk
  obtain ⟨n, hroot⟩ := searchNode_lookup plainEnv_reliable (p := [slash]) rfl blank
  rw [htree.lookup_root] at hroot
  exact (touch_resolves_iff plainEnv_reliable htree (by decide) rfl
    (congrArg Prod.fst hroot) (by decide)).mpr (.inl (by decide))

/-- On the all-zero disk, a name of 31 bytes is created and cannot be
looked up, and one of 32 stops the kernel. -/
theorem touch_unresolvable :
    let r := fsTouch plainEnv fsdesc (letters 31) 3 blank
    r.1.toOption = some ()
      ∧ (searchNode plainEnv fsdesc (letters 31) r.2).1 = .error (.err (-enametoolong))
      ∧ (fsTouch plainEnv fsdesc (letters 32) 3 blank).1 = .error .panic := by
  intro r
  refine ⟨by decide +kernel, ?_, ?_⟩
  · obtain ⟨n, hs⟩ := searchNode_lookup plainEnv_reliable (p := letters 31) rfl r.2
    rw [hs, letters_parts, lookup, if_pos (by decide)]
    rfl
  · rw [fsTouch_long rfl (by decide)]

end RojocOS.Fs
