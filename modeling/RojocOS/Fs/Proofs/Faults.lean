/-
Which disk failures a call reports.

# Patterns

A pattern says, by their number, which accesses of a run fail. Whatever
the disk does during a call, some pattern describes it, since each number
is the number of one access.

# Two properties of a computation

- `Local`: it depends on the pattern only through the accesses it makes.
  So a run whose accesses all succeed is a run on a disk that works, and
  a failure further on does not change what happened before it.
- `Audited`: it is local, and when it returns a value every access it
  made has succeeded. This is what checking every return code gives.

The reading parts of all operations are audited. The parts that are not
are those that ignore a result: the block loop of `fs_write` and its
`copy_block`, the writes of `fs_touch`, and `unref_inode` in `fs_remove`.
-/
import RojocOS.Fs.Proofs.Refusal
import RojocOS.Fs.Proofs.Keys

namespace RojocOS.Fs

open ByteMap Prog

variable {α β : Type} {a c i io io' n total u : Nat} {aba : Option Nat}
  {name par path : Path} {v : Int} {w1 : FsWorld}
variable {f : Pattern} {b : Prop} {w w' : FsWorld} {K : Nat} {op : DiskOp}
variable {p : Path}

-- ==== patterns

/-- The accesses that fail, and after how many bytes. -/
abbrev Pattern := Nat → Option Nat

/-- The environment with the failures of `f`. -/
def FsEnv.failing (E : FsEnv) (f : Pattern) : FsEnv :=
  { E with fault := fun k _ _ => f k }

/-- No failure. -/
def allWell : Pattern := fun _ => none

/-- One failure. -/
def failAt (K : Nat) : Pattern := fun k => if k = K then some 0 else none

theorem reliable_allWell (E : FsEnv) : (E.failing allWell).Reliable := fun _ _ _ => rfl

/-- The accesses from number `io` up to `io'` succeeded. -/
def Succeeded (f : Pattern) (io io' : Nat) : Prop := ∀ k, io ≤ k → k < io' → f k = none

theorem Succeeded.trans {b : Nat} (h : Succeeded f a b)
    (h' : Succeeded f b c) : Succeeded f a c := by
  intro k h1 h2
  rcases Nat.lt_or_ge k b with hk | hk
  · exact h k h1 hk
  · exact h' k hk h2

theorem Succeeded.refl (f : Pattern) (a : Nat) : Succeeded f a a :=
  fun _ h1 h2 => absurd h2 (Nat.not_lt.mpr h1)

-- ==== the rules

/-- `x` sees the pattern only through its own accesses. -/
structure Local (x : Pattern → FsM α) : Prop where
  mono : ∀ f w, w.io ≤ (x f w).2.io
  same : ∀ f g w, (∀ k, w.io ≤ k → k < (x f w).2.io → g k = f k) → x g w = x f w

/-- `x` returns a value only if all its accesses succeeded. -/
structure Audited (x : Pattern → FsM α) : Prop extends Local x where
  checked : ∀ f w a w', x f w = (.ok a, w') → Succeeded f w.io w'.io

section Rules

variable {x y : Pattern → FsM α} {g : Pattern → α → FsM β}

theorem Local.bind (hx : Local x) (hg : ∀ a, Local fun f => g f a) :
    Local fun f => x f >>= g f := by
  constructor
  · intro f w
    have h := hx.mono f w
    rcases hr : x f w with ⟨e | a, w1⟩
    · rw [hr] at h
      rw [bind_of_error hr]
      exact h
    · rw [hr] at h
      rw [bind_of_ok hr]
      exact Nat.le_trans h ((hg a).mono f w1)
  · intro f f' w hsame
    rcases hr : x f w with ⟨e | a, w1⟩
    · rw [bind_of_error hr] at hsame ⊢
      refine bind_of_error ((hx.same f f' w fun k h1 h2 => hsame k h1 ?_).trans hr)
      rw [hr] at h2
      exact h2
    · rw [bind_of_ok hr] at hsame ⊢
      have hx' : x f' w = (.ok a, w1) := by
        refine (hx.same f f' w fun k h1 h2 => hsame k h1 ?_).trans hr
        rw [hr] at h2
        exact Nat.lt_of_lt_of_le h2 ((hg a).mono f w1)
      have h1 := hx.mono f w
      rw [hr] at h1
      rw [bind_of_ok hx']
      exact (hg a).same f f' w1 fun k hk => hsame k (Nat.le_trans h1 hk)

theorem Local.ignoreErr (hx : Local x) : Local fun f => (x f).ignoreErr := by
  have hstate : ∀ f w, ((x f).ignoreErr w).2 = (x f w).2 := by
    intro f w
    unfold Prog.ignoreErr
    rcases x f w with ⟨(c | _ | _ | _) | a, w1⟩ <;> rfl
  constructor
  · intro f w
    rw [hstate]
    exact hx.mono f w
  · intro f f' w hsame
    rw [hstate] at hsame
    unfold Prog.ignoreErr
    rw [hx.same f f' w hsame]

/-- What makes no access. -/
theorem Audited.const {x : FsM α} (h : ∀ w, (x w).2.io = w.io) : Audited fun _ => x where
  mono _ w := Nat.le_of_eq (h w).symm
  same _ _ _ _ := rfl
  checked f w a w' hr := by
    have hio := h w
    rw [hr] at hio
    rw [hio]
    exact Succeeded.refl f _

theorem Audited.pure (a : α) : Audited fun _ => (pure a : FsM α) :=
  Audited.const fun _ => rfl

theorem Audited.stop (e : Stop) : Audited fun _ => (Prog.stop e : FsM α) :=
  Audited.const fun _ => rfl

theorem Audited.bind (hx : Audited x) (hg : ∀ a, Audited fun f => g f a) :
    Audited fun f => x f >>= g f where
  toLocal := Local.bind hx.toLocal fun a => (hg a).toLocal
  checked f w b w' h := by
    obtain ⟨a, w1, h1, h2⟩ := bind_ok.mp h
    exact (hx.checked f w a w1 h1).trans ((hg a).checked f w1 b w' h2)

/-- One access, which fails with `-EIO` or not. -/
theorem Audited.access (good : FsWorld → α × FsWorld) (bad : FsWorld → Nat → FsWorld)
    (hx : ∀ f w, x f w = match f w.io with
      | none => (.ok (good w).1, (good w).2)
      | some m => (.error (.err (-eio)), bad w m))
    (hgood : ∀ w, (good w).2.io = w.io + 1) (hbad : ∀ w m, (bad w m).io = w.io + 1) :
    Audited x := by
  have hio : ∀ f w, (x f w).2.io = w.io + 1 := by
    intro f w
    rw [hx]
    cases f w.io with
    | none => exact hgood w
    | some m => exact hbad w m
  refine ⟨⟨fun f w => ?_, fun f g w h => ?_⟩, fun f w a w' h => ?_⟩
  · rw [hio]
    exact Nat.le_succ _
  · have hk : g w.io = f w.io := by
      refine h w.io (Nat.le_refl _) ?_
      rw [hio]
      exact Nat.lt_succ_self _
    rw [hx, hx, hk]
  · have hw := hio f w
    rw [h] at hw
    rw [hx] at h
    cases hf : f w.io with
    | some m =>
      rw [hf] at h
      cases h
    | none =>
      intro k h1 h2
      rw [hw] at h2
      rw [Nat.le_antisymm (Nat.le_of_lt_succ h2) h1]
      exact hf

/-- A value returned is the value returned by a disk that works. -/
theorem Audited.allWell (hx : Audited x) {a : α}
    (h : x f w = (.ok a, w')) : x Fs.allWell w = (.ok a, w') := by
  refine (hx.same f Fs.allWell w fun k h1 h2 => ?_).trans h
  rw [h] at h2
  exact (hx.checked f w a w' h k h1 h2).symm

theorem Local.le (hx : Local x) {r : Except Stop α}
    (h : x f w = (r, w')) : w.io ≤ w'.io := by
  have hm := hx.mono f w
  rwa [h] at hm

/-- A failure further on makes no difference. -/
theorem Local.failAt (hx : Local x) {r : Except Stop α}
    (h : x Fs.allWell w = (r, w')) (hK : w'.io ≤ K) : x (Fs.failAt K) w = (r, w') := by
  refine (hx.same Fs.allWell (Fs.failAt K) w fun k _ h2 => ?_).trans h
  rw [h] at h2
  exact if_neg (Nat.ne_of_lt (Nat.lt_of_lt_of_le h2 hK))

/-- A failure further back makes none either. -/
theorem Local.past (hx : Local x) (hK : K < w.io) : x (Fs.failAt K) w = x Fs.allWell w :=
  hx.same Fs.allWell (Fs.failAt K) w fun _ h1 _ => if_neg (Nat.ne_of_gt (Nat.lt_of_lt_of_le hK h1))

/-- So what always returns on a disk that works returns. -/
theorem Local.past_total (hx : Local x) (ht : (x Fs.allWell).Total)
    (hK : K < w.io) : ∃ a w', x (Fs.failAt K) w = (.ok a, w') ∧ K < w'.io := by
  obtain ⟨a, w', hrun⟩ := ht w
  exact ⟨a, w', (hx.past hK).trans hrun, Nat.lt_of_lt_of_le hK (hx.le hrun)⟩

end Rules

-- ==== the accesses

variable (E : FsEnv) (d : FsDescriptor)

theorem fsdr_audited (first size : Nat) : Audited fun f => fsdr (E.failing f) first size :=
  Audited.access (fun w => (slice w.disk (u64 first) size, { w with io := w.io + 1 }))
    (fun w _ => { w with io := w.io + 1 }) (fun _ _ => rfl) (fun _ => rfl) fun _ _ => rfl

theorem fsdw_audited (src : ByteMap) (first size : Nat) :
    Audited fun f => fsdw (E.failing f) src first size :=
  Audited.access
    (fun w => ((), { w with disk := copy w.disk (u64 first) src 0 size, io := w.io + 1 }))
    (fun w m => { w with
      disk := copy w.disk (u64 first) src 0 (min m size), io := w.io + 1 })
    (fun _ _ => rfl) (fun _ => rfl) fun _ _ => rfl

/-- What looks at the result of all its accesses is audited. -/
theorem Audited.walk :
    Search E (fun _ _ _ => True) fun _ x => Audited fun f : Pattern => x fun k _ _ => f k where
  pure := Audited.pure
  bind := Audited.bind
  read := fsdr_audited E
  write src first size _ := fsdw_audited E src first size
  stop := Audited.stop

theorem Audited.buffered :
    Buffered fun _ x => Audited fun f : Pattern => x fun k _ _ => f k where
  get := Audited.const fun _ => rfl
  set _ _ := Audited.const fun _ => rfl

/-- What ignores a result is local. -/
theorem Local.walk :
    Search E (fun _ _ _ => True) fun _ x => Local fun f : Pattern => x fun k _ _ => f k where
  pure a := (Audited.pure a).toLocal
  bind := Local.bind
  read first size := (fsdr_audited E first size).toLocal
  write src first size _ := (fsdw_audited E src first size).toLocal
  stop e := (Audited.stop e).toLocal

theorem Local.buffered :
    Buffered fun _ x => Local fun f : Pattern => x fun k _ _ => f k where
  get := Audited.buffered.get.toLocal
  set b t := (Audited.buffered.set b t).toLocal

theorem fsReaddirInit_audited (path : Path) :
    Audited fun f => fsReaddirInit (E.failing f) d path :=
  Audited.bind ((Audited.walk E).searchNode path) fun _ => Audited.pure _

-- ==== fs_touch

/-- A write comes back, and has made one access. -/
theorem fsdw_back (src : ByteMap) (first size : Nat) (w : FsWorld) :
    ∃ r w', fsdw E src first size w = (r, w') ∧ w'.io = w.io + 1
      ∧ (r = .ok () ∨ r = .error (.err (-eio))) := by
  unfold fsdw
  cases E.fault w.io (u64 first) size with
  | none => exact ⟨_, _, rfl, rfl, .inl rfl⟩
  | some m => exact ⟨_, _, rfl, rfl, .inr rfl⟩

theorem fsdw_ignored (src : ByteMap) (first size : Nat) (w : FsWorld) :
    ∃ w', (fsdw E src first size).ignoreErr w = (.ok (), w') ∧ w'.io = w.io + 1 := by
  obtain ⟨r, w', hrun, hio, hr⟩ := fsdw_back E src first size w
  refine ⟨w', ?_, hio⟩
  unfold Prog.ignoreErr
  rw [hrun]
  rcases hr with rfl | rfl <;> rfl

theorem splitPath_ok
    (h : splitPath p w = (.ok (par, name), w')) : splitPath p = pure (par, name) ∧ w' = w := by
  by_cases hs : slash ∈ p
  · obtain ⟨pre, last, rfl, hno⟩ := exists_last_slash hs
    rw [splitPath_eq pre hno] at h ⊢
    cases h
    exact ⟨rfl, rfl⟩
  · rw [splitPath_of_not_mem hs] at h
    cases h

theorem not_succeeded_failAt (h : io ≤ K) (h' : K < io') :
    ¬ Succeeded (failAt K) io io' := fun hs => by
  have hK := hs K h h'
  unfold failAt at hK
  rw [if_pos rfl] at hK
  cases hK

/-- `fs_touch` gets to its writes. -/
def TouchWrites (disk : ByteMap) (p : Path) : Prop :=
  ∃ par name u k, splitPath p = pure (par, name) ∧ TouchOk disk par name u k

section Touch

variable {E} {value : Nat}

/-- `fs_touch` up to its writes. -/
def touchFront (E : FsEnv) (path : Path) : FsM (Nat × ByteMap × Path × Nat) := do
  let (par, name) ← splitPath path
  Prog.assert (name.length < 32)
  let (u, nd) ← searchNode E fsdesc par
  match ← findChild nd name (Node.count nd) 0 with
  | some _ => Prog.stop (.err (-eexist))
  | none =>
      Prog.failIf (Node.childrenCount nd = 32) (.err (-enospc))
      let k ← searchAvailableNode E fsdesc
      Prog.failIf (Node.childrenCount nd < 0 ∨ 32 ≤ Node.childrenCount nd) .wild
      pure (u, nd, name, k)

/-- Its writes. -/
def touchBack (E : FsEnv) (value : Nat) : Nat × ByteMap × Path × Nat → FsM Unit
  | (u, nd, name, k) => do
      (fsdw E (addChild nd (Node.count nd) name (u32 k))
        (fsdesc.treeOffset + u32 u * 1160) 1160).ignoreErr
      (fsdw E ONE (fsdesc.treeUsageOffset + u32 k) 1).ignoreErr
      (fsdw E (Node.setValue zero value) (fsdesc.treeOffset + u32 k * 1160) 1160).ignoreErr

theorem fsTouch_split (E : FsEnv) (p : Path) (value : Nat) :
    fsTouch E fsdesc p value = touchFront E p >>= touchBack E value := by
  unfold fsTouch touchFront
  simp only [Prog.bind_assoc]
  congr 1
  funext ⟨par, name⟩
  congr 1
  funext _
  congr 1
  funext ⟨u, nd⟩
  congr 1
  funext r
  cases r with
  | some j => rfl
  | none =>
    simp only [Prog.bind_assoc, Prog.pure_bind]
    rfl

theorem touchFront_audited (p : Path) : Audited fun f => touchFront (E.failing f) p := by
  have h := Audited.walk E
  refine Audited.bind (h.splitPath p) fun ⟨par, name⟩ => ?_
  refine Audited.bind (h.assert _) fun _ => ?_
  refine Audited.bind (h.searchNode par) fun ⟨u, nd⟩ => ?_
  refine Audited.bind (h.findChild nd name _ _) fun r => ?_
  cases r with
  | some j => exact Audited.stop _
  | none =>
    refine Audited.bind (h.failIf _ _) fun _ => ?_
    refine Audited.bind (h.searchNodeFrom _ _) fun k => ?_
    exact Audited.bind (h.failIf _ _) fun _ => Audited.pure _

/-- Whatever the writes do, they come back. -/
theorem touchBack_back (E : FsEnv) (value : Nat) (r : Nat × ByteMap × Path × Nat)
    (w : FsWorld) : ∃ w', touchBack E value r w = (.ok (), w') ∧ w.io < w'.io := by
  obtain ⟨u, nd, name, k⟩ := r
  obtain ⟨w1, h1, hio1⟩ := fsdw_ignored E (addChild nd (Node.count nd) name (u32 k))
    (fsdesc.treeOffset + u32 u * 1160) 1160 w
  obtain ⟨w2, h2, hio2⟩ := fsdw_ignored E ONE (fsdesc.treeUsageOffset + u32 k) 1 w1
  obtain ⟨w3, h3, hio3⟩ := fsdw_ignored E (Node.setValue zero value)
    (fsdesc.treeOffset + u32 k * 1160) 1160 w2
  exact ⟨w3, (bind_of_ok h1).trans ((bind_of_ok h2).trans h3), by omega⟩

/-- It got there if it returned. -/
theorem touchWrites_of_ok
    (h : fsTouch (E.failing f) fsdesc p value w = (.ok (), w')) : TouchWrites w.disk p := by
  rw [fsTouch_split] at h
  obtain ⟨r, w1, hfront, -⟩ := bind_ok.mp h
  obtain ⟨w2, hback, -⟩ := touchBack_back (E.failing allWell) value r w1
  have hrun : fsTouch (E.failing allWell) fsdesc p value w = (.ok (), w2) := by
    rw [fsTouch_split, bind_of_ok ((touchFront_audited p).allWell hfront), hback]
  obtain ⟨par, name, u, k, hs, ht, -⟩ := fsTouch_ok (reliable_allWell E) hrun
  exact ⟨par, name, u, k, hs, ht⟩

/-- From there on it returns, whatever its writes do. -/
theorem touchWrites_unreported (value : Nat) (h : TouchWrites w.disk p) :
    ∃ f w', fsTouch (E.failing f) fsdesc p value w = (.ok (), w')
      ∧ ¬ Succeeded f w.io w'.io := by
  obtain ⟨par, name, u, k, hsplit, ht⟩ := h
  rcases fsTouch_spec (reliable_allWell E) p value w with
    ⟨_, _, _, _, n, -, -, hrun⟩ | ⟨e, n, herr, -⟩
  case inr => exact absurd ht (herr.1 par name u k hsplit)
  rw [fsTouch_split] at hrun
  obtain ⟨r, w1, hfront, -⟩ := bind_ok.mp hrun
  have hlocal := (touchFront_audited (E := E) p).toLocal
  -- the first write fails
  have hfront' := hlocal.failAt hfront (Nat.le_refl w1.io)
  obtain ⟨w2, hback, hio⟩ := touchBack_back (E.failing (failAt w1.io)) value r w1
  refine ⟨failAt w1.io, w2, ?_, not_succeeded_failAt (hlocal.le hfront) hio⟩
  rw [fsTouch_split, bind_of_ok hfront', hback]

end Touch

-- ==== fs_remove

/-- `fs_remove` finds slot `i` of node `u`, whose node has an inode to
release. -/
def RemoveReleases (E : FsEnv) (disk : ByteMap) (p : Path) : Prop :=
  ∃ par name u i, splitPath p = pure (par, name) ∧ par.head? = some slash
    ∧ lookup disk 0 (pathParts par) = .ok u
    ∧ findChild (nodeAt disk u) name (Node.count (nodeAt disk u)) 0 = pure (some i)
    ∧ Node.childrenCount (nodeAt disk u) < 34 ∧ removedValue E disk u i ≠ 0

section Remove

variable {E} {par name : Path}

theorem fsdr_failAt (E : FsEnv) (first size : Nat) (w : FsWorld) :
    fsdr (E.failing (failAt w.io)) first size w
      = (.error (.err (-eio)), { w with io := w.io + 1 }) := by
  simp [fsdr, FsEnv.failing, Fs.failAt]

/-- `fs_remove` once its slot has been found. -/
theorem fsRemove_found (hs : splitPath p = pure (par, name))
    (hsearch : searchNode (E.failing f) fsdesc par w = (.ok (u, nodeAt w.disk u), w1))
    (hu : u < 2 ^ 32)
    (hchild : findChild (nodeAt w.disk u) name (Node.count (nodeAt w.disk u)) 0
      = pure (some i)) (h34 : Node.childrenCount (nodeAt w.disk u) < 34) :
    fsRemove (E.failing f) fsdesc p w
      = removeRun (E.failing f) (dropChild E (nodeAt w.disk u) i) u
          (Node.childIndex (nodeAt w.disk u) i) w1 := by
  unfold Node.count at hchild
  rw [fsRemove, hs, Prog.pure_bind]
  dsimp only
  rw [bind_of_ok hsearch]
  rw [hchild, Prog.pure_bind]
  dsimp only
  rw [failIf_bind (Int.not_le.mpr h34),
    show u32 u = u from Nat.mod_eq_of_lt hu]
  rfl

/-- A directory is removed with every access looked at. -/
theorem remove_reported (hno : ¬ RemoveReleases E w.disk p)
    (h : fsRemove (E.failing f) fsdesc p w = (.ok (), w')) : Succeeded f w.io w'.io := by
  have hE := reliable_allWell E
  obtain ⟨⟨par, name⟩, w1, hs, h1⟩ := bind_ok.mp h
  obtain ⟨hsplit, hw⟩ := splitPath_ok hs
  rw [hw] at h1
  obtain ⟨⟨u, nd⟩, w2, hsearch, h2⟩ := bind_ok.mp h1
  obtain ⟨hhd, hl, rfl, n, rfl⟩ :=
    searchNode_ok hE (((Audited.walk E).searchNode par).allWell hsearch)
  have hu : u < 2 ^ 32 := lookup_lt (by decide) hl
  have hgood := ((Audited.walk E).searchNode par).checked f w _ _ hsearch
  dsimp only at h2
  rcases findChild_cases (nodeAt w.disk u) name (Node.count (nodeAt w.disk u)) 0 with
    ⟨hr, -⟩ | ⟨i, hr, -⟩ | ⟨hr, -⟩
  case inl =>
    unfold Node.count at hr
    rw [hr, Prog.pure_bind] at h2
    cases h2
  case inr.inr =>
    unfold Node.count at hr
    rw [hr] at h2
    cases h2
  have h34 : Node.childrenCount (nodeAt w.disk u) < 34 := by
    unfold Node.count at hr
    rw [hr, Prog.pure_bind] at h2
    obtain ⟨_, w3, hcount, -⟩ := bind_ok.mp h2
    exact Int.not_le.mp (failIf_ok hcount).1
  have hzero : removedValue E w.disk u i = 0 := by
    by_contra hv
    exact hno ⟨par, name, u, i, hsplit, hhd, hl, hr, h34, hv⟩
  rw [fsRemove_found hsplit hsearch hu hr h34] at h
  generalize hx : Node.childIndex (nodeAt w.disk u) i = x at h
  have hx32 : x < 2 ^ 32 := hx ▸ childIndex_lt _ _
  -- the slot is written and the child read; its value is zero
  obtain ⟨_, w3, hw3, h3⟩ := bind_ok.mp h
  have hgood3 := (fsdw_audited E _ _ _).checked f _ _ _ hw3
  have hw3 := (fsdw_audited E _ _ _).allWell hw3
  rw [fsdw_node hE _ hu] at hw3
  cases hw3
  obtain ⟨nd, w4, hw4, h4⟩ := bind_ok.mp h3
  have hgood4 := (fsdr_audited E _ _).checked f _ _ _ hw4
  have hw4 := (fsdr_audited E _ _).allWell hw4
  rw [fsdr_node hE hx32] at hw4
  cases hw4
  have hval : Node.value (nodeAt (copy w.disk (70428 + u * 1160)
      (dropChild E (nodeAt w.disk u) i) 0 1160) x) = 0 := by
    rw [← hx]
    exact hzero
  rw [hval, when_of_not (by decide), Prog.pure_bind] at h4
  have htail : Audited fun f => (do
      fsdw (E.failing f) zero (fsdesc.treeOffset + x * 1160) 1160
      fsdw (E.failing f) ZERO (fsdesc.treeUsageOffset + x) 1 : FsM Unit) :=
    Audited.bind (fsdw_audited E _ _ _) fun _ => fsdw_audited E _ _ _
  exact hgood.trans (hgood3.trans (hgood4.trans (htail.checked f _ _ _ h4)))

/-- A file whose entry cannot be read is removed all the same. -/
theorem remove_unreported (h : RemoveReleases E w.disk p) :
    ∃ f w', fsRemove (E.failing f) fsdesc p w = (.ok (), w') ∧ ¬ Succeeded f w.io w'.io := by
  obtain ⟨par, name, u, i, hsplit, hhd, hl, hr, h34, hv⟩ := h
  have hE := reliable_allWell E
  have hu : u < 2 ^ 32 := lookup_lt (by decide) hl
  obtain ⟨n, hsearch⟩ := searchNode_lookup hE hhd w
  rw [hl] at hsearch
  have hwn : w.io ≤ n := ((Audited.walk E).searchNode par).toLocal.le hsearch
  have hsearch' := ((Audited.walk E).searchNode par).toLocal.failAt hsearch
    (show n ≤ n + 2 by omega)
  have hx32 : Node.childIndex (nodeAt w.disk u) i < 2 ^ 32 := childIndex_lt _ _
  have hslot : fsdw (E.failing (failAt (n + 2))) (dropChild E (nodeAt w.disk u) i)
      (fsdesc.treeOffset + u * 1160) 1160 { w with io := n }
      = (.ok (), { w with disk := removeSlot E w.disk u i, io := n + 1 }) :=
    (fsdw_audited E _ _ _).toLocal.failAt (fsdw_node hE _ hu _) (show n + 1 ≤ n + 2 by omega)
  have hchild := (fsdr_audited E _ _).toLocal.failAt
    (fsdr_node hE hx32 { w with disk := removeSlot E w.disk u i, io := n + 1 })
    (show n + 2 ≤ n + 2 by omega)
  have hunref : (unrefInode (E.failing (failAt (n + 2))) fsdesc
      (removedValue E w.disk u i)).ignoreErr
        { w with disk := removeSlot E w.disk u i, io := n + 2 }
      = (.ok (), { w with disk := removeSlot E w.disk u i, io := n + 3 }) := by
    have hread := fsdr_failAt E (fsdesc.inodeTableOffset + removedValue E w.disk u i * 304) 304
      { w with disk := removeSlot E w.disk u i, io := n + 2 }
    unfold Prog.ignoreErr unrefInode
    rw [bind_of_error hread]
  -- what is left is past the failure
  have htail : Audited fun f => (do
      fsdw (E.failing f) zero (fsdesc.treeOffset + Node.childIndex (nodeAt w.disk u) i * 1160) 1160
      fsdw (E.failing f) ZERO (fsdesc.treeUsageOffset + Node.childIndex (nodeAt w.disk u) i) 1
      : FsM Unit) :=
    Audited.bind (fsdw_audited E _ _ _) fun _ => fsdw_audited E _ _ _
  obtain ⟨_, w', hend, hio⟩ := htail.toLocal.past_total
    (w := { w with disk := removeSlot E w.disk u i, io := n + 3 })
    (Total.bind (fsdw_total hE _ _ _) fun _ => fsdw_total hE _ _ _)
    (Nat.lt_succ_self (n + 2))
  refine ⟨failAt (n + 2), w', ?_, not_succeeded_failAt (by omega) hio⟩
  rw [fsRemove_found hsplit hsearch' hu hr h34, removeRun, bind_of_ok hslot,
    bind_of_ok hchild]
  exact (bind_of_ok ((congrFun (when_of hv _) _).trans hunref)).trans hend

end Remove

-- ==== fs_write

/-- The allocator's map has `n` free blocks in a row. -/
def Room (disk : ByteMap) (n : Nat) : Prop :=
  ∃ s, s + n ≤ 16 ∧ ∀ b, s ≤ b → b < s + n → disk b = 0

/-- `fs_write` gets to its block loop, with at least one block to
write. -/
def WriteLoops (disk : ByteMap) (ino size offset : Nat) : Prop :=
  let e := readEntry disk ino
  let totalBlock := sizeToBlock (u64 (offset + size))
  let newBlock := subU32 totalBlock (Entry.blockCount e)
  size ≤ FS_IO_MAX_SIZE ∧ offset ≤ Entry.size e ∧ newBlock ≠ 0
    ∧ (Crowded disk e newBlock → Room disk totalBlock)

section Write

variable {E} {ino size offset : Nat}

theorem fsdr_readEntry (hE : E.Reliable) (ino : Nat) (w : FsWorld) :
    fsdr E (entryAddr ino) 304 w = (.ok (readEntry w.disk ino), { w with io := w.io + 1 }) :=
  fsdr_reliable hE _ _ _

/-- The relocation ignores the result of `copy_block`. -/
theorem writeFront_local (ino size offset : Nat) :
    Local fun f => writeFront (E.failing f) ino size offset :=
  (Local.walk E).writeFront Local.buffered Local.ignoreErr
    (fun _ => (Audited.const fun _ => rfl).toLocal) (blockIn_any _) _ _ _

theorem writeEnd_audited (ino size offset : Nat) (aba : Option Nat) (new : Nat)
    (e : ByteMap) : Audited fun f => writeEnd (E.failing f) ino size offset aba new e :=
  (Audited.walk E).writeEnd _ _ _ _ _ _

theorem encryptBlock_ignored (E : FsEnv) (index : Nat) (ctx : AesCtx) (plain : ByteMap)
    (w : FsWorld) : ∃ w', (encryptBlock E fsdesc index ctx plain).ignoreErr w = (.ok (), w')
      ∧ w.io + 1 ≤ w'.io := by
  obtain ⟨r, w1, h1, hio1, hr1⟩ := fsdw_back E (aesCtrXcryptBuffer E ctx plain 0 4096).2
    (fsdesc.dataOffset + u32 (u32 index * 4096)) 4096 w
  unfold Prog.ignoreErr encryptBlock
  rcases hr1 with rfl | rfl
  · obtain ⟨r, w2, h2, hio2, hr2⟩ := fsdw_back E ONE (fsdesc.blockUsageOffset + u32 index) 1 w1
    refine ⟨w2, ?_, by omega⟩
    rw [bind_of_ok h1, h2]
    rcases hr2 with rfl | rfl <;> rfl
  · rw [bind_of_error h1]
    exact ⟨w1, rfl, by omega⟩

/-- Under any pattern the block loop comes back, after at least one
access for each block. -/
theorem writeLoop_back (E : FsEnv) (index : Nat) :
    ∀ n i ctx w, ∃ w', writeLoop E fsdesc index n i ctx w = (.ok (), w') ∧ w.io + n ≤ w'.io := by
  intro n
  induction n with
  | zero => exact fun i ctx w => ⟨w, rfl, Nat.le_refl _⟩
  | succ n ih =>
    intro i ctx w
    obtain ⟨w1, h1, hio1⟩ := encryptBlock_ignored E (index + i) ctx (slice w.buf (i * 4096) 4096)
      { w with
        buf := (aesCtrXcryptBuffer E ctx w.buf (i * 4096) 4096).2
        trace := ⟨true, i * 4096, 4096⟩ :: ⟨false, i * 4096, 4096⟩ :: w.trace }
    obtain ⟨w2, h2, hio2⟩ := ih (i + 1) (nextCtx E ctx) w1
    refine ⟨w2, (bind_of_ok h1).trans h2, ?_⟩
    simp only at hio1
    omega

theorem room_iff (disk : ByteMap) (n : Nat) :
    Room disk n ↔ ∃ s, FreeRange fsdesc disk n s := by
  have hbyte : ∀ b < 16, mapByte fsdesc disk b = disk b := by
    intro b hb
    unfold mapByte
    rw [show fsdesc.availBlockTableOffset + b = b from Nat.zero_add b, u64_of_lt (by omega)]
  refine ⟨fun ⟨s, hlen, hz⟩ => ⟨s, hlen, fun i hi => ?_⟩,
    fun ⟨s, hlen, hz⟩ => ⟨s, hlen, fun b h1 h2 => ?_⟩⟩
  · rw [hbyte _ (by omega)]
    exact hz (s + i) (by omega) (by omega)
  · have hlen : s + n ≤ 16 := hlen
    have := hz (b - s) (by omega)
    rwa [hbyte _ (by omega), show s + (b - s) = b by omega] at this

/-- The search finds a range when there is one. -/
theorem searchFreeBlocks_iff (hE : E.Reliable) (n : Nat) (w : FsWorld) :
    (∃ r w', searchFreeBlocks E fsdesc n w = (.ok r, w')) ↔ Room w.disk n := by
  rw [room_iff]
  rcases searchFreeBlocks_least hE n w with ⟨r, io, heq, hleast⟩ | ⟨hnone, io, heq⟩
  · exact iff_of_true ⟨r, _, heq⟩ ⟨r, hleast.1⟩
  · rw [heq]
    exact iff_of_false (fun ⟨r, w', h⟩ => by cases h) fun ⟨s, hs⟩ => hnone s hs

/-- What is known when the block loop is reached. Without a new block,
every access on the way was looked at. -/
theorem writeFront_ok {r : Option Nat × Nat × ByteMap × AesCtx}
    (h : writeFront (E.failing f) ino size offset w = (.ok r, w')) :
    (r.2.1 ≠ 0 → WriteLoops w.disk ino size offset) ∧ (r.2.1 = 0 → Succeeded f w.io w'.io) := by
  have hE := reliable_allWell E
  unfold writeFront at h
  by_cases hmax : FS_IO_MAX_SIZE < size
  · rw [if_pos hmax] at h
    cases h
  rw [if_neg hmax] at h
  obtain ⟨e, w1, he, h1⟩ := bind_ok.mp h
  have hgood := (fsdr_audited E _ _).checked f _ _ _ he
  have he' := (fsdr_audited E _ _).allWell he
  rw [fsdr_readEntry hE] at he'
  cases he'
  by_cases hoff : Entry.size (readEntry w.disk ino) < offset
  · rw [if_pos hoff] at h1
    cases h1
  rw [if_neg hoff] at h1
  obtain ⟨aba, w2, hprobe, h2⟩ := bind_ok.mp h1
  have hgood2 := ((Audited.walk E).probeGrowth _ _).checked f _ _ _ hprobe
  have hprobe' := ((Audited.walk E).probeGrowth _ _).allWell hprobe
  obtain ⟨aba', io, heq, hcrowd⟩ := probeGrowth_eq hE (readEntry w.disk ino)
    (subU32 (sizeToBlock (u64 (offset + size))) (Entry.blockCount (readEntry w.disk ino)))
    { w with io := w.io + 1 }
  cases hprobe'.symm.trans heq
  obtain ⟨block, w3, hmerge, h3⟩ := bind_ok.mp h2
  have hgood3 := ((Audited.walk E).mergePartial Audited.buffered _ _).checked f _ _ _ hmerge
  obtain ⟨e', w4, hreloc, h4⟩ := bind_ok.mp h3
  obtain ⟨ctx, w5, hpart, h5⟩ := bind_ok.mp h4
  have hgood5 := ((Audited.walk E).writePartial e' (aesInitCtxIv E (Entry.cipherKey e')
    ((Entry.cipherIv e' + offset / 4096) % 2 ^ 128)) block fun _ => blockIn_any _ _).checked f _ _ _ hpart
  cases h5
  refine ⟨fun hnew => ⟨Nat.not_lt.mp hmax, Nat.not_lt.mp hoff, hnew, fun hc => ?_⟩, fun hnew => ?_⟩
  · have hdisk : w3.disk = w.disk := (mergePartial_disk hmerge).trans rfl
    unfold relocate at hreloc
    rw [if_pos (hcrowd.mpr hc)] at hreloc
    obtain ⟨first, w6, hfirst, -⟩ := bind_ok.mp hreloc
    have := (searchFreeBlocks_iff hE _ w3).mp
      ⟨first, w6, ((Audited.walk E).searchFreeFrom _ _ _ _ _).allWell hfirst⟩
    rwa [hdisk] at this
  · have haba : aba ≠ some 0 := fun ha => by
      obtain ⟨k, hk, -⟩ := hcrowd.mp ha
      exact Nat.not_lt_zero k (hnew ▸ hk)
    unfold relocate at hreloc
    rw [if_neg haba] at hreloc
    cases hreloc
    exact hgood.trans (hgood2.trans (hgood3.trans hgood5))

/-- A write without a new block looks at every access. -/
theorem write_reported (hno : ¬ WriteLoops w.disk ino size offset)
    (h : fsWrite (E.failing f) fsdesc ino size offset w = (.ok n, w')) :
    Succeeded f w.io w'.io := by
  rw [fsWrite_split] at h
  obtain ⟨⟨aba, new, e, ctx⟩, w1, hfront, h1⟩ := bind_ok.mp h
  obtain ⟨hloops, hgood⟩ := writeFront_ok hfront
  have hnew : new = 0 := by
    by_contra hne
    exact hno (hloops hne)
  obtain ⟨e', w2, hrest, h2⟩ := bind_ok.mp h1
  unfold writeRest at hrest
  rw [if_neg (not_not.mpr hnew)] at hrest
  cases hrest
  exact (hgood hnew).trans ((writeEnd_audited ino size offset aba new e).checked f _ _ _ h2)

/-- The relocation needs a free range, and nothing else. -/
theorem relocate_total (hE : E.Reliable) (e : ByteMap) (offset : Nat)
    (h : aba = some 0 → ∃ r w', searchFreeBlocks E fsdesc total w = (.ok r, w')) :
    ∃ e' w', relocate E fsdesc aba e total offset w = (.ok e', w') := by
  unfold relocate
  by_cases ha : aba = some 0
  · rw [if_pos ha]
    obtain ⟨first, w1, hfirst⟩ := h ha
    rw [bind_of_ok hfirst]
    refine Total.bind (fun w => ⟨_, _, rfl⟩) (fun key => ?_) w1
    refine Total.bind (fun w => ⟨_, _, rfl⟩) fun iv => ?_
    exact Total.bind (Total.ignoreErr (hE.walk.copyBlockFrom _ _ _ _ _ _
      fun _ _ _ => blockIn_any _ _)) fun _ => Total.pure _
  · rw [if_neg ha]
    exact ⟨e, w, rfl⟩

/-- On a disk that works the block loop is reached. -/
theorem writeFront_total (h : WriteLoops w.disk ino size offset) :
    ∃ r w', writeFront (E.failing allWell) ino size offset w = (.ok r, w') ∧ r.2.1 ≠ 0 := by
  have hE := reliable_allWell E
  obtain ⟨hmax, hoff, hnew, hroom⟩ := h
  obtain ⟨aba, io, hprobe, hcrowd⟩ := probeGrowth_eq hE (readEntry w.disk ino)
    (subU32 (sizeToBlock (u64 (offset + size))) (Entry.blockCount (readEntry w.disk ino)))
    { w with io := w.io + 1 }
  obtain ⟨block, w1, hmerge⟩ := hE.walk.mergePartial
    (buffered_total _) (readEntry w.disk ino) offset { w with io := io }
  have hdisk : w1.disk = w.disk := (mergePartial_disk hmerge).trans rfl
  obtain ⟨e', w2, hreloc⟩ := relocate_total hE (readEntry w.disk ino) offset
    fun ha => (searchFreeBlocks_iff hE _ w1).mpr (hdisk ▸ hroom (hcrowd.mp ha))
  obtain ⟨ctx, w3, hpart⟩ := hE.walk.writePartial e' (aesInitCtxIv E (Entry.cipherKey e')
    ((Entry.cipherIv e' + offset / 4096) % 2 ^ 128)) block (fun _ => blockIn_any _ _) w2
  refine ⟨⟨aba, _, e', ctx⟩, w3, ?_, hnew⟩
  unfold writeFront
  rw [if_neg (Nat.not_lt.mpr hmax), bind_of_ok (fsdr_readEntry hE ino w),
    if_neg (Nat.not_lt.mpr hoff)]
  rw [bind_of_ok hprobe]
  exact (bind_of_ok hmerge).trans ((bind_of_ok hreloc).trans (bind_of_ok hpart))

/-- A write that lengthens the file never learns what became of its
blocks. -/
theorem write_unreported (h : WriteLoops w.disk ino size offset) :
    ∃ f n w', fsWrite (E.failing f) fsdesc ino size offset w = (.ok n, w')
      ∧ ¬ Succeeded f w.io w'.io := by
  have hE := reliable_allWell E
  obtain ⟨⟨aba, new, e, ctx⟩, w1, hfront, hnew⟩ := writeFront_total h
  have hwn := (writeFront_local ino size offset).le hfront
  have hfront' := (writeFront_local ino size offset).failAt hfront (Nat.le_refl w1.io)
  -- the first access of the loop fails
  obtain ⟨w2, hloop, hio⟩ := writeLoop_back (E.failing (failAt w1.io))
    (Entry.startBlock e + sizeToBlock offset) new 0 ctx w1
  have hpast : w1.io < w2.io := by
    simp only at hnew
    omega
  obtain ⟨n, w', hend, hio'⟩ := (writeEnd_audited ino size offset aba new
    (Entry.setBlockCount e (sizeToBlock (u64 (offset + size))))).toLocal.past_total
    (hE.walk.writeEnd _ _ _ _ _ _) hpast
  refine ⟨failAt w1.io, n, w', ?_, not_succeeded_failAt hwn hio'⟩
  rw [fsWrite_split, bind_of_ok hfront']
  refine (bind_of_ok ?_).trans hend
  unfold writeRest
  rw [if_pos hnew]
  exact (bind_of_ok hloop).trans rfl

end Write

-- ==== the operations

/-- The calls that can succeed although an access failed. -/
def Unreported (E : FsEnv) (disk : ByteMap) : DiskOp → Prop
  | .allocInode => False
  | .touch path _ => TouchWrites disk path
  | .write ino size offset => WriteLoops disk ino size offset
  | .remove path => RemoveReleases E disk path

theorem call_reported {E} (hno : ¬ Unreported E w.disk op)
    (h : op.call (E.failing f) fsdesc w = (.ok v, w')) : Succeeded f w.io w'.io := by
  cases op with
  | allocInode =>
    obtain ⟨ino, w1, hrun, hv⟩ := bind_ok.mp h
    cases hv
    have hx : Audited fun f => fsAllocInode (E.failing f) fsdesc := by
      refine Audited.bind ((Audited.walk E).searchInodeFrom _ _) fun ino => ?_
      refine Audited.bind (fsdr_audited E _ _) fun e => ?_
      exact Audited.bind (fsdw_audited E _ _ _) fun _ => Audited.pure _
    exact hx.checked f w ino _ hrun
  | touch path value =>
    obtain ⟨_, w1, hrun, -⟩ := bind_ok.mp h
    exact absurd (touchWrites_of_ok hrun) hno
  | write ino size offset =>
    obtain ⟨n, w1, hrun, hv⟩ := bind_ok.mp h
    cases hv
    exact write_reported hno hrun
  | remove path =>
    obtain ⟨_, w1, hrun, hv⟩ := bind_ok.mp h
    cases hv
    exact remove_reported hno hrun

theorem call_unreported {E} (h : Unreported E w.disk op) :
    ∃ f v w', op.call (E.failing f) fsdesc w = (.ok v, w') ∧ ¬ Succeeded f w.io w'.io := by
  cases op with
  | allocInode => exact h.elim
  | touch path value =>
    obtain ⟨f, w', hrun, hbad⟩ := touchWrites_unreported value h
    exact ⟨f, 0, w', (bind_of_ok hrun).trans rfl, hbad⟩
  | write ino size offset =>
    obtain ⟨f, n, w', hrun, hbad⟩ := write_unreported h
    exact ⟨f, n, w', (bind_of_ok hrun).trans rfl, hbad⟩
  | remove path =>
    obtain ⟨f, w', hrun, hbad⟩ := remove_unreported h
    exact ⟨f, 0, w', (bind_of_ok hrun).trans rfl, hbad⟩

-- ==== error codes

/-- The error codes of `fs_readdir_init` are the file system's. -/
theorem fsReaddirInit_code {c : Int}
    (h : fsReaddirInit E fsdesc path w = (.error (.err c), w')) : ErrorCode c := by
  unfold fsReaddirInit at h
  by_cases hp : path.head? = some slash
  case neg =>
    rw [searchNode, Prog.bind_assoc, bind_of_error (assert_of_not hp)] at h
    cases h
  obtain ⟨n, hrun | ⟨-, hrun⟩⟩ := searchNode_outcome E hp w
  · cases hl : lookup w.disk 0 (pathParts path) with
    | error e =>
      obtain ⟨c', rfl, hc⟩ := lookup_error hl
      rw [hl] at hrun
      rw [bind_of_error hrun] at h
      cases h
      exact hc
    | ok v =>
      rw [hl] at hrun
      rw [bind_of_ok hrun] at h
      cases h
  · rw [bind_of_error hrun] at h
    cases h
    decide

end RojocOS.Fs
