/-
Runs of the file system: the state after `fs_init` on an all-zero disk,
and the operations a run is made of.

An operation that returns an error code has returned: the run goes on
from the state it left. An operation that fails an assertion, never
returns or leaves the modelled memory ends the run.
-/
import RojocOS.Fs.Io
import RojocOS.Fs.Tree
import Mathlib.Logic.Relation

namespace RojocOS.Fs

open ByteMap

variable (E : FsEnv)

/-- The descriptor `fs_init` leaves, starting from the static zero one. -/
def fsdesc : FsDescriptor :=
  { inodeCount := 16, blockCount := 16, nodeCount := 16
    availBlockTableOffset := 0
    inodeTableOffset := 12
    blockUsageOffset := 4876
    treeUsageOffset := 4892
    treeOffset := 70428
    dataOffset := 88988 }

/-- A disk of zeros, nothing done yet. -/
def blank : FsWorld :=
  { disk := zero, io := 0, rng := 0, buf := zero }

/-- Where every run starts: the state `fs_init` leaves. -/
def start : FsWorld := (fsInit E FsDescriptor.zero blank).2

/-- One call into the file system. `write` carries the caller's
buffer, `read` the fuel its loop is given. -/
inductive FsOp where
  | allocInode
  | touch (path : Path) (value : Nat)
  | write (ino : Nat) (buf : ByteMap) (size offset : Nat)
  | read (fuel ino size offset : Nat)
  | remove (path : Path)

/-- The effect of one call, with its result as an integer. -/
def FsOp.exec : FsOp → FsM Int
  | .allocInode => do
      let ino ← fsAllocInode E fsdesc
      pure ino
  | .touch path value => do
      fsTouch E fsdesc path value
      pure 0
  | .write ino buf size offset => do
      Prog.modify fun w => { w with buf := buf }
      let n ← fsWrite E fsdesc ino size offset
      pure n
  | .read fuel ino size offset => do
      let n ← fsRead E fsdesc fuel ino size offset
      pure n
  | .remove path => do
      fsRemove E fsdesc path
      pure 0

/-- The call came back, with a value or an error code. -/
def returned : Except Stop Int → Prop
  | .ok _ => True
  | .error (.err _) => True
  | .error _ => False

instance (r : Except Stop Int) : Decidable (returned r) :=
  match r with
  | .ok _ => .isTrue trivial
  | .error (.err _) => .isTrue trivial
  | .error .panic => .isFalse id
  | .error .hang => .isFalse id
  | .error .wild => .isFalse id

/-- One step of a run. -/
def FsStep (w : FsWorld) (op : FsOp) (w' : FsWorld) : Prop :=
  (op.exec E w).2 = w' ∧ returned (op.exec E w).1

/-- A run whose every step meets `C`. -/
def FsRun (C : FsWorld → FsOp → Prop) : FsWorld → FsWorld → Prop :=
  Relation.ReflTransGen fun w w' => ∃ op, C w op ∧ FsStep E w op w'

/-- What one step preserves, a run preserves. -/
theorem FsRun.invariant {C : FsWorld → FsOp → Prop} (P : FsWorld → Prop)
    (hstep : ∀ w op, P w → C w op → returned (op.exec E w).1 →
      P (op.exec E w).2) {w w' : FsWorld} (h0 : P w) (hrun : FsRun E C w w') :
    P w' := by
  induction hrun with
  | refl => exact h0
  | tail _ hs ih =>
    obtain ⟨op, hc, heq, hr⟩ := hs
    rw [← heq]
    exact hstep _ op ih hc hr

/-- The entry of inode `ino` has a reference. -/
def Live (w : FsWorld) (ino : Nat) : Prop :=
  ino < 16 ∧ 0 < Entry.ref (entryAt w.disk ino)

/-- What a read of `disk` returns to its caller: the result, and the
bytes delivered into a cleared buffer. -/
def readResult (disk : ByteMap) (fuel ino size offset : Nat) :
    Except Stop (List UInt8) :=
  match fsRead E fsdesc fuel ino size offset
      { disk := disk, io := 0, rng := 0, buf := zero } with
  | (.ok n, w) => .ok ((List.range n).map w.buf)
  | (.error e, _) => .error e

/-- The state after a list of calls. -/
def runAll (w : FsWorld) : List FsOp → FsWorld
  | [] => w
  | op :: ops => runAll (op.exec E w).2 ops

/-- Every call of the list meets `C` and comes back. -/
def AllMeet (C : FsWorld → FsOp → Prop) (w : FsWorld) : List FsOp → Prop
  | [] => True
  | op :: ops =>
      C w op ∧ returned (op.exec E w).1 ∧ AllMeet C (op.exec E w).2 ops

theorem runAll_run {C : FsWorld → FsOp → Prop} :
    ∀ (ops : List FsOp) (w : FsWorld), AllMeet E C w ops →
      FsRun E C w (runAll E w ops) := by
  intro ops
  induction ops with
  | nil => exact fun w _ => Relation.ReflTransGen.refl
  | cons op ops ih =>
    intro w ⟨hc, hr, hrest⟩
    exact Relation.ReflTransGen.head ⟨op, hc, rfl, hr⟩ (ih _ hrest)

/-- A disk that works, random bytes in order, and a cipher simple enough
to evaluate. -/
def plainEnv : FsEnv where
  fault := fun _ _ _ => none
  rand := fun i => UInt8.ofNat i
  stack := zero
  keyExpansion := id
  cipher := fun roundKey block i => roundKey i ^^^ block i ^^^ 7

theorem plainEnv_reliable : plainEnv.Reliable := fun _ _ _ => rfl

end RojocOS.Fs
