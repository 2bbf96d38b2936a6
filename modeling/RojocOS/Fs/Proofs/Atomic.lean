/-
An error code leaves the disk as it was.

On a disk that works, each operation is a part that only reads, where
all its error exits are, followed by a part that returns no error code:
the block and node writes either succeed or have their result ignored.
The two rules of `Prog.ErrKeeps` put the parts together. Nothing is
assumed about the descriptor or the contents of the disk.
-/
import RojocOS.Fs.Proofs.Write

namespace RojocOS.Fs

open ByteMap Prog

variable {E : FsEnv} {d : FsDescriptor} {P : Nat → Prop} {α β : Type}
variable {W : ByteMap → Nat → Nat → Prop} {R : FsWorld → FsWorld → Prop}

-- ==== the rules

/-- Whenever `x` returns an error code, the bytes in `P` are unchanged. -/
def ErrSpares (P : Nat → Prop) (x : FsM α) : Prop :=
  ErrKeeps (fun w w' => ∀ a, P a → w'.disk a = w.disk a) x

theorem Spares.errSpares {x : FsM α} (hx : Spares P x) : ErrSpares P x :=
  Keeps.errKeeps hx

theorem ErrSpares.of_noErr {x : FsM α} (hx : x.NoErr) : ErrSpares P x :=
  hx.errKeeps

theorem ErrSpares.bind {x : FsM α} {f : α → FsM β} (hx : Spares P x)
    (hf : ∀ a, ErrSpares P (f a)) : ErrSpares P (x >>= f) :=
  ErrKeeps.bind_keeps (fun h1 h2 a ha => (h2 a ha).trans (h1 a ha)) hx hf

theorem Discipline.errBind
    (h : Discipline E W R) {x : FsM α} {f : α → FsM β} (hx : Keeps R x)
    (hf : ∀ a, ErrKeeps R (f a)) : ErrKeeps R (x >>= f) :=
  ErrKeeps.bind_keeps (fun h1 h2 => h.trans h1 h2) hx hf

-- ==== operations

theorem fsAllocInode_errSpares (hE : E.Reliable) : ErrSpares P (fsAllocInode E d) := by
  refine ErrSpares.bind (searchInodeFrom_spares _ _) fun ino => ?_
  refine ErrSpares.bind (fsdr_spares _ _) fun e => ErrSpares.of_noErr ?_
  exact NoErr.bind (Total.noErr (fsdw_total hE _ _ _)) fun _ => NoErr.pure _

theorem fsTouch_errSpares (path : Path) (value : Nat) :
    ErrSpares P (fsTouch E d path value) := by
  refine ErrSpares.bind (splitPath_spares _) fun pc => ?_
  refine ErrSpares.bind (Spares.assert _) fun _ => ?_
  refine ErrSpares.bind (searchNode_spares _) fun r => ?_
  refine ErrSpares.bind (findChild_spares _ _ _ _) fun found => ?_
  cases found with
  | some i => exact Spares.errSpares (Spares.stop _)
  | none =>
    refine ErrSpares.bind (Spares.failIf _ _) fun _ => ?_
    refine ErrSpares.bind (searchNodeFrom_spares _ _) fun i => ?_
    refine ErrSpares.bind (Spares.failIf _ _) fun _ => ErrSpares.of_noErr ?_
    -- the three writes, none of them looked at
    refine NoErr.bind (NoErr.ignoreErr _) fun _ => ?_
    exact NoErr.bind (NoErr.ignoreErr _) fun _ => NoErr.ignoreErr _

theorem relocate_errKeeps
    (h : Discipline E W R) (aba : Option Nat) (e : ByteMap) (total offset : Nat) :
    ErrKeeps R (relocate E d aba e total offset) := by
  refine ErrKeeps.ite (h.errBind (h.walk.searchFreeFrom _ _ _ _ _) fun first => ?_)
    (Keeps.errKeeps (h.pure _))
  refine NoErr.errKeeps (NoErr.bind (fun _ _ _ => nofun) fun key => ?_)
  exact NoErr.bind (fun _ _ _ => nofun) fun iv =>
    NoErr.bind (NoErr.ignoreErr _) fun _ => NoErr.pure _

/-- The last check of `fs_write` is the search for a free range, and up to
there it only reads. -/
theorem fsWrite_errKeeps (hE : E.Reliable)
    (h : Discipline E W R) (hb : Discipline.BufferFree R)
    (ino size offset : Nat) : ErrKeeps R (fsWrite E d ino size offset) := by
  refine ErrKeeps.ite (Keeps.errKeeps (h.stop _)) ?_
  refine h.errBind (h.read _ _) fun e => ?_
  refine ErrKeeps.ite (Keeps.errKeeps (h.stop _)) ?_
  refine h.errBind (h.walk.probeGrowth _ _) fun aba => ?_
  refine h.errBind (h.walk.mergePartial (h.buffered hb) _ _) fun block => ?_
  refine ErrKeeps.bind_noErr (relocate_errKeeps h _ _ _ _) fun e' => ?_
  -- behind it, everything returns
  have ht := hE.walk
  refine Total.noErr (Total.bind (ht.writePartial _ _ _ fun _ => blockIn_any _ _) fun ctx => ?_)
  refine Total.bind (ht.writeRest (buffered_total E) Total.ignoreErr _ _ _
    fun _ _ => blockIn_any _ _) fun e'' => ?_
  refine Total.bind (fsdw_total hE _ _ _) fun _ => Total.bind ?_ fun _ => Total.pure _
  exact Total.ite (ht.clearAvailability _ _ _ fun _ _ _ => trivial) (Total.pure _)

/-- Reading leaves disk and generator. -/
theorem ReadOnly.discipline (E : FsEnv) :
    Discipline E (fun _ _ _ => False) fun w w' => w'.disk = w.disk ∧ w'.rng = w.rng where
  refl _ := ⟨rfl, rfl⟩
  trans h1 h2 := ⟨h2.1.trans h1.1, h2.2.trans h1.2⟩
  read start size w := by
    unfold fsdr
    split <;> exact ⟨rfl, rfl⟩
  write _ _ _ h := h.elim

theorem fsRemove_errSpares (hE : E.Reliable) (path : Path) :
    ErrSpares P (fsRemove E d path) := by
  refine ErrSpares.bind (splitPath_spares _) fun pc => ?_
  refine ErrSpares.bind (searchNode_spares _) fun r => ?_
  refine ErrSpares.bind (findChild_spares _ _ _ _) fun found => ?_
  cases found with
  | none => exact Spares.errSpares (Spares.stop _)
  | some i =>
    have hw : ∀ src a n, (fsdw E src a n).NoErr := fun src a n =>
      Total.noErr (fsdw_total hE src a n)
    have hr : ∀ a n, (fsdr E a n).NoErr := fun a n =>
      Total.noErr fun w => ⟨_, _, fsdr_reliable hE a n w⟩
    refine ErrSpares.bind (Spares.failIf _ _) fun _ => ErrSpares.of_noErr ?_
    refine NoErr.bind (hw _ _ _) fun _ => ?_
    refine NoErr.bind (hr _ _) fun nd => ?_
    refine NoErr.bind ?_ fun _ => NoErr.bind (hw _ _ _) fun _ => hw _ _ _
    exact NoErr.ite (NoErr.ignoreErr _) (NoErr.pure _)

-- ==== the theorem

/-- The operations that change the disk. -/
inductive DiskOp where
  | allocInode
  | touch (path : Path) (value : Nat)
  | write (ino size offset : Nat)
  | remove (path : Path)

/-- A call on any descriptor, with the value the C function returns. -/
def DiskOp.call (E : FsEnv) (d : FsDescriptor) : DiskOp → FsM Int
  | .allocInode => do
      let ino ← fsAllocInode E d
      pure ino
  | .touch path value => do
      fsTouch E d path value
      pure 0
  | .write ino size offset => do
      let n ← fsWrite E d ino size offset
      pure n
  | .remove path => do
      fsRemove E d path
      pure 0

/-- What the caller sees of a call that came back. -/
def answer : Except Stop Int → Option Int
  | .ok v => some v
  | .error (.err c) => some c
  | .error _ => none

theorem DiskOp.call_errSpares (hE : E.Reliable) (op : DiskOp) : ErrSpares P
    (op.call E d) := by
  cases op with
  | allocInode => exact ErrKeeps.bind_noErr (fsAllocInode_errSpares hE) fun _ => NoErr.pure _
  | touch path value =>
    exact ErrKeeps.bind_noErr (fsTouch_errSpares path value) fun _ => NoErr.pure _
  | write ino size offset =>
    exact ErrKeeps.bind_noErr (fsWrite_errKeeps hE (Spares.discipline E P) (Spares.bufferFree P)
      ino size offset) fun _ => NoErr.pure _
  | remove path =>
    exact ErrKeeps.bind_noErr (fsRemove_errSpares hE path) fun _ => NoErr.pure _

/-- A value returned by a call is not negative. -/
theorem DiskOp.call_nonneg (op : DiskOp) {w w' : FsWorld} {v : Int}
    (h : op.call E d w = (.ok v, w')) : 0 ≤ v := by
  cases op with
  | allocInode =>
    obtain ⟨ino, _, _, hv⟩ := bind_ok.mp h
    cases hv
    exact Int.natCast_nonneg ino
  | write ino size offset =>
    obtain ⟨n, _, _, hv⟩ := bind_ok.mp h
    cases hv
    exact Int.natCast_nonneg n
  | touch path value =>
    obtain ⟨_, _, _, hv⟩ := bind_ok.mp h
    cases hv
    exact Int.le_refl 0
  | remove path =>
    obtain ⟨_, _, _, hv⟩ := bind_ok.mp h
    cases hv
    exact Int.le_refl 0

/-- A call that answers with a negative value has changed no byte of the
disk. -/
theorem errors_atomic (hE : E.Reliable) (d : FsDescriptor) (op : DiskOp) (w : FsWorld)
    {v : Int} (hv : answer (op.call E d w).1 = some v) (hneg : v < 0) :
    (op.call E d w).2.disk = w.disk := by
  rcases hrun : op.call E d w with ⟨r, w'⟩
  rw [hrun] at hv
  rcases r with (c | _ | _ | _) | n
  · exact funext fun a => op.call_errSpares (P := fun _ => True) hE w c w' hrun a trivial
  · cases hv
  · cases hv
  · cases hv
  · cases hv
    exact absurd (op.call_nonneg hrun) (Int.not_le.mpr hneg)

/-- The second creation of a name. -/
theorem errors_atomic_duplicate :
    let w := ((DiskOp.touch [slash, 97] 0).call plainEnv fsdesc (start plainEnv)).2
    answer ((DiskOp.touch [slash, 97] 1).call plainEnv fsdesc w).1 = some (-17)
      ∧ ((DiskOp.touch [slash, 97] 1).call plainEnv fsdesc w).2.disk = w.disk := by
  intro w
  have hv : answer ((DiskOp.touch [slash, 97] 1).call plainEnv fsdesc w).1 = some (-17) := by
    decide +kernel
  exact ⟨hv, errors_atomic plainEnv_reliable fsdesc _ w hv (by decide)⟩

end RojocOS.Fs
