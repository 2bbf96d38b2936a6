/-
What `fs_touch` and `fs_remove` do to the disk, said once.

On a disk that works every error code of the two comes before the first
write. So a call that returns either has the one effect described by
`touchDisk` or `removeDisk`, with the facts its checks established
(`TouchOk`, `RemoveOk`), or has changed nothing. No invariant of the
tree is assumed here: these are the inversion lemmas the invariants are
proved from.
-/
import RojocOS.Fs.Proofs.Lookup

namespace RojocOS.Fs

open ByteMap Prog

variable {E : FsEnv} {i u x : Nat} {p path : Path}
variable {w w' : FsWorld} {disk : ByteMap} {cs : List Path} {e : Stop}

/-- Only the disk and the number of accesses may differ. -/
def Rewrote (w : FsWorld) (disk : ByteMap) (w' : FsWorld) : Prop :=
  ∃ n, w' = { w with disk := disk, io := n }

theorem Rewrote.disk_eq (h : Rewrote w disk w') : w'.disk = disk := by
  obtain ⟨n, rfl⟩ := h
  rfl

theorem Rewrote.rng_eq (h : Rewrote w disk w') : w'.rng = w.rng := by
  obtain ⟨n, rfl⟩ := h
  rfl

-- ==== the searches

/-- Slot `i` holds a used child called `name`. -/
def Holds (nd : ByteMap) (name : Path) (i : Nat) : Prop :=
  Node.childIndex nd i ≠ 0 ∧ equalToBuffer nd (Node.nameAt i) name = true

instance (nd : ByteMap) (name : Path) (i : Nat) : Decidable (Holds nd name i) :=
  inferInstanceAs (Decidable (_ ∧ _))

/-- The child search looks at one slot after the other and stops at the
first match, or leaves the node. -/
theorem findChild_cases (nd : ByteMap) (name : Path) (n : Nat) :
    ∀ i, (findChild nd name n i = pure none ∧ (i ≤ 32 → i + n ≤ 32)
        ∧ ∀ j, i ≤ j → j < i + n → ¬ Holds nd name j)
      ∨ (∃ j, findChild nd name n i = pure (some j) ∧ i ≤ j ∧ j < i + n
          ∧ j < 32 ∧ Holds nd name j)
      ∨ (findChild nd name n i = Prog.stop .wild ∧ 32 < i + n
        ∧ ∀ j, i ≤ j → j < 32 → ¬ Holds nd name j) := by
  induction n with
  | zero =>
    intro i
    exact .inl ⟨rfl, fun hi => hi, fun j h1 h2 => absurd h2 (by omega)⟩
  | succ n ih =>
    intro i
    unfold findChild
    by_cases h32 : 32 ≤ i
    · rw [if_pos h32]
      exact .inr (.inr ⟨rfl, by omega, fun j h1 h2 => absurd h2 (by omega)⟩)
    rw [if_neg h32]
    by_cases hm : Node.childIndex nd i ≠ 0
        ∧ equalToBuffer nd (Node.nameAt i) name = true
    · rw [if_pos hm]
      exact .inr (.inl ⟨i, rfl, by omega, by omega, by omega, hm⟩)
    rw [if_neg hm]
    -- what holds from the next slot on holds from this one on
    have hfirst : ∀ {b : Nat}, (∀ j, i + 1 ≤ j → j < b → ¬ Holds nd name j) →
        ∀ j, i ≤ j → j < b → ¬ Holds nd name j := by
      intro b hno j h1 h2
      rcases Nat.eq_or_lt_of_le h1 with rfl | hlt
      · exact hm
      · exact hno j hlt h2
    rcases ih (i + 1) with ⟨hr, hin, hno⟩ | ⟨j, hr, h1, h2, h3, hj⟩ | ⟨hr, h1, hno⟩
    · refine .inl ⟨hr, fun _ => by omega, hfirst fun j h1 h2 => hno j h1 (by omega)⟩
    · exact .inr (.inl ⟨j, hr, by omega, by omega, h3, hj⟩)
    · exact .inr (.inr ⟨hr, by omega, hfirst hno⟩)

-- ==== fs_touch

/-- The disk `fs_touch` leaves: a slot of node `u` filled, node `k`
marked used and cleared. -/
def touchDisk (disk : ByteMap) (u k : Nat) (name : Path) (value : Nat) : ByteMap :=
  copy
    (copy
      (copy disk (70428 + u * 1160)
        (addChild (nodeAt disk u) (Node.count (nodeAt disk u)) name k) 0 1160)
      (4892 + k) ONE 0 1)
    (70428 + k * 1160) (Node.setValue zero value) 0 1160

/-- What the checks of `fs_touch` established: `u` is the parent, `k` the
node taken. -/
structure TouchOk (disk : ByteMap) (par name : Path) (u k : Nat) : Prop where
  head : par.head? = some slash
  parent : lookup disk 0 (pathParts par) = .ok u
  short : name.length < 32
  absent : ∀ i < Node.count (nodeAt disk u), ¬ Holds (nodeAt disk u) name i
  room : 0 ≤ Node.childrenCount (nodeAt disk u)
    ∧ Node.childrenCount (nodeAt disk u) < 32
  index : 1 ≤ k ∧ k < 16
  free : disk (4892 + k) = 0

/-- The codes the file system returns. -/
def ErrorCode (c : Int) : Prop := -64 ≤ c ∧ c < 0

instance (c : Int) : Decidable (ErrorCode c) := inferInstanceAs (Decidable (_ ∧ _))

theorem lookup_error :
    ∀ {u e}, lookup disk u cs = .error e → ∃ c, e = .err c ∧ ErrorCode c := by
  induction cs with
  | nil =>
    intro u e h
    cases h
  | cons c cs ih =>
    intro u e h
    rw [lookup] at h
    split at h
    · cases h
      exact ⟨_, rfl, by decide⟩
    · split at h
      · cases h
        exact ⟨_, rfl, by decide⟩
      · exact ih h

/-- `fs_touch` does not create `name` in the directory node `nd`: it is
there, the node is full, or no other node is free. -/
def NameRefused (disk nd : ByteMap) (name : Path) : Prop :=
  (∃ i < Node.count nd, i < 32 ∧ Holds nd name i)
    ∨ Node.childrenCount nd = 32
    ∨ (Node.childrenCount nd < 32 ∧ ∀ k, 1 ≤ k → k < 16 → disk (4892 + k) ≠ 0)

/-- `fs_touch` answers with an error code. -/
def TouchRefused (disk : ByteMap) (path : Path) : Prop :=
  ∃ par name, splitPath path = pure (par, name) ∧ par.head? = some slash
    ∧ name.length < 32
    ∧ ((∃ e, lookup disk 0 (pathParts par) = .error e)
      ∨ ∃ u, lookup disk 0 (pathParts par) = .ok u ∧ NameRefused disk (nodeAt disk u) name)

theorem lookup_lt : ∀ {u v}, u < 2 ^ 32 → lookup disk u cs = .ok v → v < 2 ^ 32 := by
  induction cs with
  | nil =>
    intro u v hu h
    cases h
    exact hu
  | cons c cs ih =>
    intro u v hu h
    rw [lookup] at h
    split at h
    · cases h
    · split at h
      · cases h
      · next he => exact ih (edge_lt he) h

/-- A search that fails changes nothing. -/
theorem searchNode_error (hE : E.Reliable)
    (h : searchNode E fsdesc p w = (.error e, w')) : Rewrote w w.disk w' := by
  by_cases hp : p.head? = some slash
  · obtain ⟨n, hl⟩ := searchNode_lookup hE hp w
    rw [h] at hl
    exact ⟨n, (Prod.mk.inj hl).2⟩
  · unfold searchNode at h
    rw [bind_of_error (assert_of_not hp)] at h
    exact ⟨w.io, (Prod.mk.inj h).2.symm⟩

/-- The part of `fs_touch` after the parent `u` has been read into `nd`. -/
def touchIn (E : FsEnv) (nd : ByteMap) (u : Nat) (name : Path) (value : Nat) : FsM Unit := do
  match ← findChild nd name (Node.count nd) 0 with
  | some _ => Prog.stop (.err (-eexist))
  | none =>
      Prog.failIf (Node.childrenCount nd = 32) (.err (-enospc))
      let k ← searchAvailableNode E fsdesc
      Prog.failIf (Node.childrenCount nd < 0 ∨ 32 ≤ Node.childrenCount nd) .wild
      (fsdw E (addChild nd (Node.count nd) name (u32 k))
        (fsdesc.treeOffset + u * 1160) 1160).ignoreErr
      (fsdw E ONE (fsdesc.treeUsageOffset + u32 k) 1).ignoreErr
      (fsdw E (Node.setValue zero value) (fsdesc.treeOffset + u32 k * 1160) 1160).ignoreErr

section Touch

variable {path par name : Path} {u k value : Nat}

theorem TouchOk.not_nameRefused (h : TouchOk disk par name u k) :
    ¬ NameRefused disk (nodeAt disk u) name := by
  have hroom := h.room
  rintro (⟨i, hi, -, hh⟩ | hfull | ⟨-, hused⟩)
  · exact h.absent i hi hh
  · omega
  · exact hused k h.index.1 h.index.2 h.free

/-- The outcomes of that part, by what the node holds. -/
theorem touchIn_cases (hE : E.Reliable) (hhd : par.head? = some slash)
    (hlen : name.length < 32) (hl : lookup w.disk 0 (pathParts par) = .ok u) (value : Nat) :
    (∃ c n, NameRefused w.disk (nodeAt w.disk u) name ∧ ErrorCode c
        ∧ touchIn E (nodeAt w.disk u) u name value w = (.error (.err c), { w with io := n }))
      ∨ (∃ n, ¬ NameRefused w.disk (nodeAt w.disk u) name
        ∧ ¬ (0 ≤ Node.childrenCount (nodeAt w.disk u)
          ∧ Node.childrenCount (nodeAt w.disk u) ≤ 32)
        ∧ touchIn E (nodeAt w.disk u) u name value w = (.error .wild, { w with io := n }))
      ∨ ∃ k n, TouchOk w.disk par name u k
        ∧ touchIn E (nodeAt w.disk u) u name value w
          = (.ok (), { w with disk := touchDisk w.disk u k name value, io := n }) := by
  generalize hnd : nodeAt w.disk u = nd
  unfold touchIn
  rcases findChild_cases nd name (Node.count nd) 0 with
    ⟨hr, hcount, habs⟩ | ⟨j, hr, -, hj, h32, hh⟩ | ⟨hr, hwild, hno⟩
  · rw [Nat.zero_add] at hcount habs
    have habs : ∀ i < Node.count nd, ¬ Holds nd name i := fun i => habs i (Nat.zero_le i)
    rw [hr, Prog.pure_bind]
    dsimp only
    by_cases hfull : Node.childrenCount nd = 32
    · rw [bind_of_error (failIf_of hfull)]
      exact .inl ⟨_, _, .inr (.inl hfull), by decide, rfl⟩
    have hlt : Node.childrenCount nd < 32 := by
      have := hcount (Nat.zero_le 32)
      unfold Node.count at this
      omega
    rw [failIf_bind hfull]
    have usage : ∀ i < 16, u64 (fsdesc.treeUsageOffset + i) = 4892 + i := fun i hi =>
      u64_of_lt (by simp only [fsdesc]; omega)
    have hturn : ∀ n i (w : FsWorld), i < 16 → searchNodeFrom E fsdesc (n + 1) i w
        = (if w.disk (4892 + i) = 0 then pure i else searchNodeFrom E fsdesc n (i + 1))
            { w with io := w.io + 1 } := by
      intro n i w hi
      rw [searchNodeFrom, bind_of_ok (fsdr_reliable hE _ _ w), usage i hi]
      rfl
    rcases firstZero_cases (fun _ => rfl) hturn 15 1 w (by decide) with
      ⟨k, m, hk, hk1, hk16, hfree⟩ | ⟨m, hk, hused⟩
    · have hk' : searchAvailableNode E fsdesc w = (.ok k, { w with io := m }) := hk
      rw [bind_of_ok hk', show u32 k = k from Nat.mod_eq_of_lt (by omega)]
      by_cases hroom : Node.childrenCount nd < 0 ∨ 32 ≤ Node.childrenCount nd
      · rw [bind_of_error (failIf_of hroom)]
        refine .inr (.inl ⟨m, ?_, by omega, rfl⟩)
        rintro (⟨i, hi, -, hh⟩ | h | ⟨-, h⟩)
        · exact habs i hi hh
        · exact hfull h
        · exact h k hk1 hk16 hfree
      · rw [failIf_bind hroom,
          bind_of_ok (ignoreErr_of_ok (fsdw_node hE _ (lookup_lt (by decide) hl) _)),
          bind_of_ok (ignoreErr_of_ok (fsdw_reliable hE ONE _ 1 _)), usage k (by omega),
          ignoreErr_of_ok (fsdw_node hE _ (by omega) _), ← hnd]
        exact .inr (.inr ⟨k, _, ⟨hhd, hl, hlen, hnd ▸ habs, hnd ▸ by omega, ⟨hk1, hk16⟩,
          hfree⟩, rfl⟩)
    · have hk' : searchAvailableNode E fsdesc w
          = (.error (.err (-enospc)), { w with io := m }) := hk
      rw [bind_of_error hk']
      exact .inl ⟨_, _, .inr (.inr ⟨hlt, hused⟩), by decide, rfl⟩
  · rw [Nat.zero_add] at hj
    rw [hr, Prog.pure_bind]
    exact .inl ⟨_, w.io, .inl ⟨j, hj, h32, hh⟩, by decide, rfl⟩
  · rw [Nat.zero_add] at hwild
    have hmany : 32 < Node.childrenCount nd := by
      unfold Node.count at hwild
      omega
    rw [hr]
    refine .inr (.inl ⟨w.io, ?_, by omega, rfl⟩)
    rintro (⟨i, -, hi, hh⟩ | h | ⟨h, -⟩)
    · exact hno i (Nat.zero_le i) hi hh
    · omega
    · omega

theorem fsTouch_found (hE : E.Reliable) (hs : splitPath path = pure (par, name))
    (hhd : par.head? = some slash) (hlen : name.length < 32)
    (hl : lookup w.disk 0 (pathParts par) = .ok u) (value : Nat) :
    ∃ n, fsTouch E fsdesc path value w
      = touchIn E (nodeAt w.disk u) u name value { w with io := n } := by
  obtain ⟨n, hsearch⟩ := searchNode_lookup hE hhd w
  rw [hl] at hsearch
  have hu : u32 u = u := Nat.mod_eq_of_lt (lookup_lt (by decide) hl)
  refine ⟨n, ?_⟩
  rw [fsTouch, hs, Prog.pure_bind]
  dsimp only
  rw [assert_bind hlen, bind_of_ok hsearch]
  rw [hu]
  rfl

/-- What `fs_touch` ends with when it creates nothing: an error code if
the path is refused, and only then. -/
def TouchError (disk : ByteMap) (path : Path) (e : Stop) : Prop :=
  (∀ par name u k, splitPath path = pure (par, name) → ¬ TouchOk disk par name u k)
    ∧ ((TouchRefused disk path ∧ ∃ c, ErrorCode c ∧ e = .err c)
      ∨ ¬ TouchRefused disk path ∧ ∀ c, e ≠ .err c)

/-- The path is not even looked at. -/
theorem touchError_of_unread
    (hno : ∀ par name, splitPath path = pure (par, name) → par.head? = some slash →
      ¬ name.length < 32) (he : ∀ c, e ≠ .err c) : TouchError disk path e := by
  refine ⟨fun par name u k hs ht => hno par name hs ht.head ht.short, .inr ⟨?_, he⟩⟩
  rintro ⟨par, name, hs, hhd, hlen, -⟩
  exact hno par name hs hhd hlen

/-- `fs_touch` has its whole effect, or has changed nothing. -/
theorem fsTouch_spec (hE : E.Reliable) (path : Path) (value : Nat) (w : FsWorld) :
    (∃ par name u k n, splitPath path = pure (par, name) ∧ TouchOk w.disk par name u k
        ∧ fsTouch E fsdesc path value w
          = (.ok (), { w with disk := touchDisk w.disk u k name value, io := n }))
      ∨ ∃ e n, TouchError w.disk path e
        ∧ fsTouch E fsdesc path value w = (.error e, { w with io := n }) := by
  by_cases hs : slash ∈ path
  case neg =>
    have hstop := splitPath_of_not_mem hs
    refine .inr ⟨.panic, w.io, touchError_of_unread (fun par name hsp => ?_) nofun, ?_⟩
    · cases congrFun (hstop.symm.trans hsp) w
    · rw [fsTouch, hstop]
      rfl
  obtain ⟨pre, name, rfl, hno⟩ := exists_last_slash hs
  have hsplit := splitPath_eq pre hno
  generalize (if pre = [] then [slash] else pre) = par at hsplit
  have hback : ∀ {par' name'}, splitPath (pre ++ slash :: name) = pure (par', name') →
      par' = par ∧ name' = name := fun h =>
    Prod.mk.inj (pure_inj w (h.symm.trans hsplit))
  by_cases hlen : name.length < 32
  case neg =>
    refine .inr ⟨.panic, w.io, touchError_of_unread (fun par' name' hsp _ => ?_) nofun, ?_⟩
    · obtain ⟨rfl, rfl⟩ := hback hsp
      exact hlen
    · rw [fsTouch, hsplit, Prog.pure_bind]
      exact bind_of_error (assert_of_not hlen)
  by_cases hhd : par.head? = some slash
  case neg =>
    refine .inr ⟨.panic, w.io, touchError_of_unread (fun par' name' hsp hhd' => ?_) nofun, ?_⟩
    · obtain ⟨rfl, rfl⟩ := hback hsp
      exact absurd hhd' hhd
    · rw [fsTouch, hsplit, Prog.pure_bind]
      dsimp only
      rw [assert_bind hlen, searchNode, Prog.bind_assoc, bind_of_error (assert_of_not hhd)]
  cases hl : lookup w.disk 0 (pathParts par) with
  | error e =>
    obtain ⟨n, hsearch⟩ := searchNode_lookup hE hhd w
    obtain ⟨c, rfl, hc⟩ := lookup_error hl
    rw [hl] at hsearch
    refine .inr ⟨.err c, n, ⟨fun par' name' u k hsp ht => ?_,
      .inl ⟨⟨par, name, hsplit, hhd, hlen, .inl ⟨_, hl⟩⟩, c, hc, rfl⟩⟩, ?_⟩
    · obtain ⟨rfl, rfl⟩ := hback hsp
      cases hl.symm.trans ht.parent
    · rw [fsTouch, hsplit, Prog.pure_bind]
      dsimp only
      rw [assert_bind hlen, bind_of_error hsearch]
  | ok u =>
    obtain ⟨n, hrun⟩ := fsTouch_found hE hsplit hhd hlen hl value
    have hrefused : TouchRefused w.disk (pre ++ slash :: name)
        ↔ NameRefused w.disk (nodeAt w.disk u) name := by
      refine ⟨?_, fun hr => ⟨par, name, hsplit, hhd, hlen, .inr ⟨u, hl, hr⟩⟩⟩
      rintro ⟨par', name', hsp, -, -, ⟨e, he⟩ | ⟨u', hu', hr⟩⟩
      · obtain ⟨rfl, rfl⟩ := hback hsp
        cases hl.symm.trans he
      · obtain ⟨rfl, rfl⟩ := hback hsp
        cases hl.symm.trans hu'
        exact hr
    rw [hrun]
    rcases touchIn_cases hE (w := { w with io := n }) hhd hlen hl value with
      ⟨c, m, hr, hc, herr⟩ | ⟨m, hr, hcount, hwild⟩ | ⟨k, m, ht, hok⟩
    · refine .inr ⟨.err c, m, ⟨fun par' name' u' k hsp ht => ?_,
        .inl ⟨hrefused.mpr hr, c, hc, rfl⟩⟩, herr⟩
      obtain ⟨rfl, rfl⟩ := hback hsp
      cases hl.symm.trans ht.parent
      exact ht.not_nameRefused hr
    · refine .inr ⟨.wild, m, ⟨fun par' name' u' k hsp ht => ?_,
        .inr ⟨fun h => hr (hrefused.mp h), nofun⟩⟩, hwild⟩
      obtain ⟨rfl, rfl⟩ := hback hsp
      cases hl.symm.trans ht.parent
      exact hcount ⟨ht.room.1, Int.le_of_lt ht.room.2⟩
    · exact .inl ⟨par, name, u, k, m, hsplit, ht, hok⟩

theorem fsTouch_cases (hE : E.Reliable) (path : Path) (value : Nat) (w : FsWorld) :
    (∃ par name u k, splitPath path = pure (par, name)
        ∧ TouchOk w.disk par name u k
        ∧ (fsTouch E fsdesc path value w).1 = .ok ()
        ∧ Rewrote w (touchDisk w.disk u k name value) (fsTouch E fsdesc path value w).2)
      ∨ ((∃ e, (fsTouch E fsdesc path value w).1 = .error e)
        ∧ Rewrote w w.disk (fsTouch E fsdesc path value w).2) := by
  rcases fsTouch_spec hE path value w with ⟨par, name, u, k, n, hs, ht, hrun⟩ | ⟨e, n, -, hrun⟩
  · rw [hrun]
    exact .inl ⟨par, name, u, k, hs, ht, rfl, n, rfl⟩
  · rw [hrun]
    exact .inr ⟨⟨e, rfl⟩, n, rfl⟩

/-- What a successful creation has done. -/
theorem fsTouch_ok (hE : E.Reliable) (h : fsTouch E fsdesc path value w = (.ok (), w')) :
    ∃ par name u k, splitPath path = pure (par, name) ∧ TouchOk w.disk par name u k
      ∧ w'.disk = touchDisk w.disk u k name value := by
  rcases fsTouch_spec hE path value w with ⟨par, name, u, k, n, hs, ht, hrun⟩ | ⟨e, n, -, hrun⟩
  · cases h.symm.trans hrun
    exact ⟨par, name, u, k, hs, ht, rfl⟩
  · cases h.symm.trans hrun

/-- The list of error exits is complete. -/
theorem fsTouch_outcome (hE : E.Reliable) (path : Path) (value : Nat) (w : FsWorld) :
    (TouchRefused w.disk path
        ∧ ∃ c, ErrorCode c ∧ (fsTouch E fsdesc path value w).1 = .error (.err c))
      ∨ (¬ TouchRefused w.disk path
        ∧ ∀ c, (fsTouch E fsdesc path value w).1 ≠ .error (.err c)) := by
  rcases fsTouch_spec hE path value w with
    ⟨par, name, u, k, n, hs, ht, hrun⟩ | ⟨e, n, ⟨-, ⟨hr, c, hc, rfl⟩ | ⟨hr, he⟩⟩, hrun⟩
  · rw [hrun]
    refine .inr ⟨?_, fun c => nofun⟩
    rintro ⟨par', name', hs', -, -, hr⟩
    obtain ⟨rfl, rfl⟩ := Prod.mk.inj (pure_inj w (hs'.symm.trans hs))
    rcases hr with ⟨e, he⟩ | ⟨u', hu', hr⟩
    · cases ht.parent.symm.trans he
    · cases ht.parent.symm.trans hu'
      exact ht.not_nameRefused hr
  · rw [hrun]
    exact .inl ⟨hr, c, hc, rfl⟩
  · rw [hrun]
    exact .inr ⟨hr, fun c h => he c (Except.error.inj h)⟩

end Touch

-- ==== fs_remove

/-- The parent node written back. -/
def removeSlot (E : FsEnv) (disk : ByteMap) (u i : Nat) : ByteMap :=
  copy disk (70428 + u * 1160) (dropChild E (nodeAt disk u) i) 0 1160

/-- The inode of the removed node, as `fs_remove` reads it. -/
def removedValue (E : FsEnv) (disk : ByteMap) (u i : Nat) : Nat :=
  Node.value (nodeAt (removeSlot E disk u i) (Node.childIndex (nodeAt disk u) i))

/-- The disk before the removed node is cleared. -/
def removeUnref (E : FsEnv) (disk : ByteMap) (u i : Nat) : ByteMap :=
  if removedValue E disk u i ≠ 0 then
    unrefDisk (removeSlot E disk u i) (removedValue E disk u i)
  else removeSlot E disk u i

/-- The disk `fs_remove` leaves. -/
def removeDisk (E : FsEnv) (disk : ByteMap) (u i : Nat) : ByteMap :=
  copy
    (copy (removeUnref E disk u i)
      (70428 + Node.childIndex (nodeAt disk u) i * 1160) zero 0 1160)
    (4892 + Node.childIndex (nodeAt disk u) i) ZERO 0 1

/-- What the checks of `fs_remove` established: slot `i` of node `u` is
the one removed. -/
structure RemoveOk (disk : ByteMap) (par name : Path) (u i : Nat) : Prop where
  head : par.head? = some slash
  parent : lookup disk 0 (pathParts par) = .ok u
  slot : i < Node.count (nodeAt disk u) ∧ i < 32
  holds : Holds (nodeAt disk u) name i
  count : Node.childrenCount (nodeAt disk u) < 34

/-- The inode to be released has a reference, if there is one. -/
def Releasable (E : FsEnv) (disk : ByteMap) (u i : Nat) : Prop :=
  removedValue E disk u i ≠ 0 →
    0 < Entry.ref (entryAt (removeSlot E disk u i) (removedValue E disk u i))

/-- The part of `fs_remove` after the slot has been found. -/
def removeRun (E : FsEnv) (nd : ByteMap) (u x : Nat) : FsM Unit := do
  fsdw E nd (fsdesc.treeOffset + u * 1160) 1160
  let nd ← fsdr E (fsdesc.treeOffset + x * 1160) 1160
  Prog.when (Node.value nd ≠ 0) (unrefInode E fsdesc (Node.value nd)).ignoreErr
  fsdw E zero (fsdesc.treeOffset + x * 1160) 1160
  fsdw E ZERO (fsdesc.treeUsageOffset + x) 1

/-- It does all its writes, or fails the assertion of `unref_inode`. -/
theorem removeRun_cases (hE : E.Reliable) (hu : u < 2 ^ 32)
    (w : FsWorld) (hxi : Node.childIndex (nodeAt w.disk u) i = x) :
    (Releasable E w.disk u i
        ∧ ∃ m, removeRun E (dropChild E (nodeAt w.disk u) i) u x w
          = (.ok (), { w with disk := removeDisk E w.disk u i, io := m }))
      ∨ (¬ Releasable E w.disk u i
        ∧ (removeRun E (dropChild E (nodeAt w.disk u) i) u x w).1
          = .error .panic) := by
  have hx : x < 2 ^ 32 := hxi ▸ childIndex_lt _ _
  have hus : u64 (fsdesc.treeUsageOffset + x) = 4892 + x :=
    u64_of_lt (by simp only [fsdesc]; omega)
  -- after the release, the two last writes
  have htail : ∀ m, (do
      fsdw E zero (fsdesc.treeOffset + x * 1160) 1160
      fsdw E ZERO (fsdesc.treeUsageOffset + x) 1 : FsM Unit)
        { w with disk := removeUnref E w.disk u i, io := m }
      = (.ok (), { w with disk := removeDisk E w.disk u i, io := m + 1 + 1 }) := by
    intro m
    unfold removeDisk
    rw [bind_of_ok (fsdw_node hE zero hx _), fsdw_reliable hE, hus, hxi]
  have hwr : fsdw E (dropChild E (nodeAt w.disk u) i)
      (fsdesc.treeOffset + u * 1160) 1160 w
      = (.ok (), { w with disk := removeSlot E w.disk u i, io := w.io + 1 }) :=
    fsdw_node hE _ hu w
  have hval : Node.value (nodeAt (removeSlot E w.disk u i) x)
      = removedValue E w.disk u i := by
    unfold removedValue
    rw [hxi]
  unfold removeRun
  rw [bind_of_ok hwr, bind_of_ok (fsdr_node hE hx _), hval]
  unfold Releasable removeUnref at *
  by_cases hv : removedValue E w.disk u i = 0
  · left
    rw [when_of_not (not_not_intro hv), Prog.pure_bind]
    rw [if_neg (not_not_intro hv)] at htail
    exact ⟨fun h => absurd hv h, _, htail _⟩
  · rw [when_of hv]
    rw [if_pos hv] at htail
    rcases unrefInode_cases hE (show removedValue E w.disk u i < 2 ^ 32 from value_lt _)
        { w with disk := removeSlot E w.disk u i, io := w.io + 1 + 1 } with
      ⟨hr, hun⟩ | ⟨hr, hun⟩
    · left
      rw [bind_of_ok (ignoreErr_of_ok hun)]
      exact ⟨fun _ => hr, _, htail _⟩
    · right
      have hig : (unrefInode E fsdesc (removedValue E w.disk u i)).ignoreErr
          { w with disk := removeSlot E w.disk u i, io := w.io + 1 + 1 }
          = (.error .panic, { w with
              disk := removeSlot E w.disk u i, io := w.io + 1 + 1 + 1 }) := by
        unfold Prog.ignoreErr
        rw [hun]
      rw [bind_of_error hig]
      exact ⟨fun h => absurd (h hv) (Nat.not_lt.mpr (Nat.le_of_eq hr)), rfl⟩

/-- `fs_remove` has its whole effect, or has changed nothing, or has
failed the assertion of `unref_inode`. -/
theorem fsRemove_cases (hE : E.Reliable) (path : Path) (w : FsWorld) :
    (∃ par name u i, splitPath path = pure (par, name)
        ∧ RemoveOk w.disk par name u i
        ∧ ((Releasable E w.disk u i ∧ (fsRemove E fsdesc path w).1 = .ok ()
            ∧ Rewrote w (removeDisk E w.disk u i) (fsRemove E fsdesc path w).2)
          ∨ (¬ Releasable E w.disk u i
            ∧ (fsRemove E fsdesc path w).1 = .error .panic)))
      ∨ ((∃ e, (fsRemove E fsdesc path w).1 = .error e)
        ∧ Rewrote w w.disk (fsRemove E fsdesc path w).2
        ∧ ∀ par name u i, splitPath path = pure (par, name) →
            RemoveOk w.disk par name u i →
            32 < Node.childrenCount (nodeAt w.disk u)) := by
  by_cases hs : slash ∈ path
  case neg =>
    right
    unfold fsRemove
    rw [splitPath_of_not_mem hs]
    refine ⟨⟨_, rfl⟩, ⟨w.io, rfl⟩, fun par name u i hsp => ?_⟩
    exact absurd (congrFun hsp w) (by intro h; cases h)
  obtain ⟨pre, name, rfl, hno⟩ := exists_last_slash hs
  have hsplit := splitPath_eq pre hno
  generalize (if pre = [] then [slash] else pre) = par at hsplit
  rw [fsRemove, hsplit, Prog.pure_bind]
  dsimp only
  cases hsearch : searchNode E fsdesc par w with
  | mk r w1 =>
  cases r with
  | error e =>
    right
    rw [bind_of_error hsearch]
    refine ⟨⟨e, rfl⟩, searchNode_error hE hsearch, fun par' name' u i hsp h => ?_⟩
    obtain ⟨rfl, rfl⟩ := Prod.mk.inj (pure_inj w hsp)
    obtain ⟨n, hl⟩ := searchNode_lookup hE h.head w
    rw [hsearch, h.parent] at hl
    cases hl
  | ok r =>
    obtain ⟨u, nd⟩ := r
    obtain ⟨hhd, hl, rfl, n, rfl⟩ := searchNode_ok hE hsearch
    have hu : u < 2 ^ 32 := lookup_lt (by decide) hl
    -- whatever the path is split into, this is the parent
    have hsame : ∀ par' name' u' i, (pure (par, name) : FsM (Path × Path))
        = pure (par', name') → RemoveOk w.disk par' name' u' i →
        u' = u ∧ name' = name := by
      intro par' name' u' i hsp h
      obtain ⟨rfl, rfl⟩ := Prod.mk.inj (pure_inj w hsp)
      exact ⟨Except.ok.inj (h.parent.symm.trans hl), rfl⟩
    rw [bind_of_ok hsearch]
    rw [show u32 u = u from Nat.mod_eq_of_lt hu]
    rcases findChild_cases (nodeAt w.disk u) name
        (Node.childrenCount (nodeAt w.disk u)).toNat 0 with
      ⟨hr, -, hno⟩ | ⟨i, hr, -, hi, hi32, hh⟩ | ⟨hr, hwild, -⟩
    · right
      rw [hr, Prog.pure_bind]
      refine ⟨⟨_, rfl⟩, ⟨n, rfl⟩, fun par' name' u' i hsp h => ?_⟩
      obtain ⟨rfl, rfl⟩ := hsame par' name' u' i hsp h
      rw [Nat.zero_add] at hno
      exact absurd h.holds (hno i (Nat.zero_le _) h.slot.1)
    · rw [hr, Prog.pure_bind]
      dsimp only
      by_cases h34 : 34 ≤ Node.childrenCount (nodeAt w.disk u)
      · right
        rw [bind_of_error (failIf_of h34)]
        refine ⟨⟨_, rfl⟩, ⟨n, rfl⟩, fun par' name' u' i hsp h => ?_⟩
        obtain ⟨rfl, rfl⟩ := hsame par' name' u' i hsp h
        omega
      · left
        rw [failIf_bind h34]
        rw [Nat.zero_add] at hi
        refine ⟨par, name, u, i, rfl, ⟨hhd, hl, ⟨hi, hi32⟩, hh, by omega⟩, ?_⟩
        have hrun := removeRun_cases hE (i := i) hu { w with io := n } rfl
        unfold removeRun dropChild at hrun
        rcases hrun with ⟨hrel, m, hrun⟩ | ⟨hrel, hrun⟩
        · left
          rw [hrun]
          exact ⟨hrel, rfl, m, rfl⟩
        · right
          rw [hrun]
          exact ⟨hrel, rfl⟩
    · right
      rw [hr]
      refine ⟨⟨_, rfl⟩, ⟨n, rfl⟩, fun par' name' u' i hsp h => ?_⟩
      obtain ⟨rfl, rfl⟩ := hsame par' name' u' i hsp h
      omega

-- ==== one call

theorem exec_touch_cases (hE : E.Reliable) (path : Path) (value : Nat) (w : FsWorld) :
    (∃ par name u k, splitPath path = pure (par, name) ∧ TouchOk w.disk par name u k
        ∧ Rewrote w (touchDisk w.disk u k name value) ((FsOp.touch path value).exec E w).2)
      ∨ Rewrote w w.disk ((FsOp.touch path value).exec E w).2 := by
  rw [exec_state]
  rcases fsTouch_cases hE path value w with ⟨par, name, u, k, hs, ht, -, hw⟩ | ⟨-, hw⟩
  · exact .inl ⟨par, name, u, k, hs, ht, hw⟩
  · exact .inr hw

/-- The assertion of `unref_inode` ends the run. -/
theorem exec_remove_cases (hE : E.Reliable)
    (hret : returned ((FsOp.remove path).exec E w).1) :
    (∃ par name u i, splitPath path = pure (par, name) ∧ RemoveOk w.disk par name u i
        ∧ Rewrote w (removeDisk E w.disk u i) ((FsOp.remove path).exec E w).2)
      ∨ Rewrote w w.disk ((FsOp.remove path).exec E w).2 := by
  rw [exec_state]
  rcases fsRemove_cases hE path w with
    ⟨par, name, u, i, hs, hr, ⟨-, -, hw⟩ | ⟨-, hpanic⟩⟩ | ⟨-, hw, -⟩
  · exact .inl ⟨par, name, u, i, hs, hr, hw⟩
  · have herr : (FsOp.remove path).exec E w = (.error .panic, (fsRemove E fsdesc path w).2) :=
      bind_of_error (Prod.ext hpanic rfl)
    rw [herr] at hret
    exact hret.elim
  · exact .inr hw

end RojocOS.Fs
