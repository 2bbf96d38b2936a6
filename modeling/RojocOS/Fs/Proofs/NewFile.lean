/-
The entry a new file is given.

`fs_alloc_inode` takes an entry because its reference count is zero and
clears nothing, so a new file is empty exactly as far as entries without
references are. `unref_inode` clears the entry it releases. What can undo
that is `fs_write`, which asks for no reference: through a descriptor
that outlived its file it fills an entry nobody owns.

`Unused` says that entries without references are empty. It is an
invariant of the runs whose writes are `Tended`. Entry 0 plays no part,
so the bytes cleared at the end of a relocation, which lie in front of
entry 1 as long as the file has at most 300 blocks, do no harm.
-/
import RojocOS.Fs.Proofs.Keys

namespace RojocOS.Fs

open ByteMap Prog

variable {E : FsEnv} {e e' : ByteMap} {i ino offset size : Nat} {op : FsOp} {w' : FsWorld}

/-- Entry `e` has no content. -/
def Entry.Empty (e : ByteMap) : Prop := Entry.size e = 0 ∧ Entry.blockCount e = 0

instance (e : ByteMap) : Decidable (Entry.Empty e) := inferInstanceAs (Decidable (_ ∧ _))

/-- The entries nobody refers to are empty. -/
def Unused (disk : ByteMap) : Prop :=
  ∀ i, 1 ≤ i → i < 16 → Entry.ref (entryAt disk i) = 0 → Entry.Empty (entryAt disk i)

namespace Unused

variable {disk disk' : ByteMap}

theorem zero : Unused ByteMap.zero := by
  intro i _ _ _
  have hz : entryAt ByteMap.zero i = ByteMap.zero := by
    funext x
    unfold entryAt slice
    split <;> rfl
  rw [hz]
  exact ⟨load_eq_zero.mpr fun _ _ _ => rfl, load_eq_zero.mpr fun _ _ _ => rfl⟩

/-- Only the bytes from entry 1 on matter. -/
theorem congr (h : Unused disk) (hd : ∀ a, Low a → 316 ≤ a → disk' a = disk a) :
    Unused disk' := by
  intro i h1 h16
  have he : entryAt disk' i = entryAt disk i := by
    refine entryAt_congr fun a ha hb => hd a (entryAddr_low h16 hb) ?_
    unfold entryAddr at ha
    omega
  rw [he]
  exact h i h1 h16

/-- A new entry for `ino`. -/
theorem writeEntry (h : Unused disk)
    (he : 1 ≤ ino → ino < 16 → Entry.ref e = 0 → Entry.Empty e) :
    Unused (copy disk (entryAddr ino) e 0 304) := by
  intro i h1 h16
  by_cases hi : i = ino
  · subst hi
    have hload : ∀ b k, b + k ≤ 304 →
        load (entryAt (copy disk (entryAddr i) e 0 304) i) b k = load e b k :=
      fun b k hb => load_entryAt_copy hb
    simp only [Entry.ref, Entry.Empty, Entry.size, Entry.blockCount] at he ⊢
    rw [hload _ _ (by omega), hload _ _ (by omega), hload _ _ (by omega)]
    exact he h1 h16
  · rw [entryAt_copy_other (Ne.symm hi)]
    exact h i h1 h16

end Unused

-- ==== the steps

/-- The writes that fill no entry without an owner. A write that goes
through is to a file of at most 300 blocks, and concerns no entry from 1
to 15, or finds a reference, or leaves the file empty. -/
def Tended (w : FsWorld) : FsOp → Prop
  | .write ino _ size offset => ino < 2 ^ 32
      ∧ (FS_IO_MAX_SIZE < size ∨ Entry.size (entryAt w.disk ino) < offset
        ∨ (Entry.blockCount (entryAt w.disk ino) ≤ 300
          ∧ (ino = 0 ∨ 16 ≤ ino ∨ Live w ino ∨ offset + size = 0)))
  | _ => True

section Steps

variable {w : FsWorld}

theorem releasedEntry_empty (hpos : 0 < Entry.ref e)
    (hz : Entry.ref (releasedEntry e) = 0) : Entry.Empty (releasedEntry e) := by
  have h256 : Entry.ref e < 256 := load_lt _ _ 1
  unfold releasedEntry at hz ⊢
  split
  · exact ⟨load_eq_zero.mpr fun _ _ _ => rfl, load_eq_zero.mpr fun _ _ _ => rfl⟩
  · next hone =>
      rw [if_neg hone, (setRef_fields _ _).1] at hz
      omega

/-- The inode handed out is empty, and no byte of the tree changes. -/
theorem fsAllocInode_fresh (hE : E.Reliable) (h : Unused w.disk)
    (ha : fsAllocInode E fsdesc w = (.ok i, w')) :
    1 ≤ i ∧ i < 16 ∧ Entry.Empty (entryAt w'.disk i)
      ∧ ∀ a, 4876 ≤ a → w'.disk a = w.disk a := by
  rcases fsAllocInode_cases hE w with ⟨j, io, h1, h16, href, hrun⟩ | ⟨e, io, hrun, -⟩
  case inr => cases ha.symm.trans hrun
  cases ha.symm.trans hrun
  refine ⟨h1, h16, ?_, fun a ha => copy_of_not_mem (by unfold entryAddr; omega)⟩
  obtain ⟨hs, hb⟩ := h i h1 h16 href
  obtain ⟨-, hs', hb'⟩ := setRef_fields (entryAt w.disk i) (Entry.ref (entryAt w.disk i) + 1)
  exact ⟨(load_entryAt_copy (by omega)).trans (hs'.trans hs),
    (load_entryAt_copy (by omega)).trans (hb'.trans hb)⟩

/-- The bytes cleared at the end of a relocation lie before entry 1. -/
theorem Wrote.unused (hw : Wrote E ino size offset w w' e') (h : Unused w.disk)
    (hcnt : Entry.blockCount (entryAt w.disk ino) ≤ 300)
    (hc : ino = 0 ∨ 16 ≤ ino ∨ Live w ino ∨ offset + size = 0) : Unused w'.disk := by
  have htable := hw.table_above 316 (by decide) fun hmoves => by
    have := (hw.moved hmoves).1
    omega
  refine (h.writeEntry fun h1 h16 hz => ?_).congr htable
  have href : Entry.ref e' = Entry.ref (entryAt w.disk ino) :=
    load_congr fun x h1 h2 => hw.front x (by omega)
  rw [href] at hz
  rcases hc with h0 | h0 | hlive | h0
  · exact absurd h0 (Nat.ne_of_gt h1)
  · exact absurd h16 (Nat.not_lt.mpr h0)
  · exact absurd hz (Nat.ne_of_gt hlive.2)
  · rw [Entry.Empty, hw.length, hw.count, h0]
    exact ⟨rfl, rfl⟩

/-- One call. -/
theorem FsOp.exec_unused (hE : E.Reliable) (hc : Tended w op)
    (hret : returned (op.exec E w).1) (h : Unused w.disk) : Unused (op.exec E w).2.disk := by
  refine exec_table hE (fun hd h => h.congr fun a ha _ => hd a ha) (fun h _ _ _ v hv => ?_)
    (fun h _ _ hpos => h.writeEntry fun _ _ => releasedEntry_empty hpos)
    (fun ino buf size offset hop h => ?_) h
  · refine h.writeEntry fun _ _ hz => ?_
    rw [(setRef_fields _ _).1, hv] at hz
    exact absurd hz (by decide)
  · subst hop
    rcases exec_write hE hret with ⟨hd, -⟩ | ⟨n, hrun⟩
    · rw [hd]
      exact h
    obtain ⟨-, e', hw⟩ := fsWrite_ok hc.1 hrun
    rcases hc.2 with hmax | hoff | ⟨hcnt, hcase⟩
    · exact absurd hw.max (Nat.not_le.mpr hmax)
    · exact absurd hw.inside (Nat.not_le.mpr hoff)
    · exact hw.unused h hcnt hcase

/-- So does a run. -/
theorem FsRun.unused (hE : E.Reliable) (hrun : FsRun E Tended (start E) w) :
    Unused w.disk := by
  refine hrun.invariant E (fun w => Unused w.disk)
    (fun _ _ h hc hret => FsOp.exec_unused hE hc hret h) ?_
  rw [start_disk]
  exact Unused.zero

end Steps

end RojocOS.Fs
