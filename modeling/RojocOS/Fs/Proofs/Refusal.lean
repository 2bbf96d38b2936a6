/-
When `fs_touch` and `fs_alloc_inode` answer with an error code.

`fs_touch` refuses a path whose parent is not found, whose name is taken,
whose parent is full, or when no node is left. The other ways it can end
without creating anything are not answers: a failed assertion, or a slot
index outside the node. `TouchRefused` lists the first kind, as a
condition on the disk alone, and `fsTouch_outcome` says that the list is
complete. It looks only at the tree and its usage map, so allocating an
inode does not change it.
-/
import RojocOS.Fs.Proofs.TreeOps

namespace RojocOS.Fs

open ByteMap Prog

variable {E : FsEnv} {cs : List Path} {disk disk' : ByteMap} {e : Stop} {i : Nat}
  {path : Path} {w w' : FsWorld}

/-- Only the tree and its usage map count. -/
theorem lookup_tree (h : ∀ a, 4892 ≤ a → disk' a = disk a)
    : ∀ u, lookup disk' u cs = lookup disk u cs := by
  induction cs with
  | nil => exact fun _ => rfl
  | cons c cs ih =>
    intro u
    have hnode : nodeAt disk' u = nodeAt disk u := nodeAt_congr fun x hx _ => h x (by omega)
    unfold lookup edge
    rw [hnode]
    split
    · rfl
    · split
      · rfl
      · exact ih _

theorem TouchRefused.tree (h : ∀ a, 4892 ≤ a → disk' a = disk a)
    (hr : TouchRefused disk path) : TouchRefused disk' path := by
  obtain ⟨par, name, hs, hhd, hlen, hr⟩ := hr
  refine ⟨par, name, hs, hhd, hlen, ?_⟩
  rw [lookup_tree h]
  rcases hr with he | ⟨u, hl, hn⟩
  · exact .inl he
  · refine .inr ⟨u, hl, ?_⟩
    rw [nodeAt_congr fun x hx _ => h x (by omega)]
    rcases hn with hn | hn | ⟨hn, hu⟩
    · exact .inl hn
    · exact .inr (.inl hn)
    · refine .inr (.inr ⟨hn, fun k h1 h16 => ?_⟩)
      rw [h _ (by omega)]
      exact hu k h1 h16

-- ==== inodes

/-- Every inode that can be handed out has a reference. -/
def InodesUsed (disk : ByteMap) : Prop :=
  ∀ i, 1 ≤ i → i < 16 → Entry.ref (entryAt disk i) ≠ 0

/-- The inode handed out was free, and its reference is all that changed. -/
theorem fsAllocInode_ok (hE : E.Reliable) (h : fsAllocInode E fsdesc w = (.ok i, w')) :
    1 ≤ i ∧ i < 16 ∧ Entry.ref (entryAt w.disk i) = 0 ∧ Entry.ref (entryAt w'.disk i) = 1
      ∧ ∀ a, 4876 ≤ a → w'.disk a = w.disk a := by
  rcases fsAllocInode_cases hE w with ⟨j, io, h1, h16, hfree, ha⟩ | ⟨e, io, ha, -⟩
  · cases ha.symm.trans h
    refine ⟨h1, h16, hfree, ?_, fun a ha => copy_of_not_mem (by unfold entryAddr; omega)⟩
    have hload : Entry.ref (entryAt (copy w.disk (entryAddr i) (Entry.setRef (entryAt w.disk i)
        (Entry.ref (entryAt w.disk i) + 1)) 0 304) i)
        = Entry.ref (Entry.setRef (entryAt w.disk i) (Entry.ref (entryAt w.disk i) + 1)) :=
      load_entryAt_copy (by omega)
    rw [hload, (setRef_fields _ _).1, hfree]
  · cases ha.symm.trans h

/-- `fs_alloc_inode` fails exactly because there is no inode. -/
theorem fsAllocInode_error (hE : E.Reliable)
    (h : fsAllocInode E fsdesc w = (.error e, w')) :
    e = .err (-enospc) ∧ InodesUsed w.disk ∧ w'.disk = w.disk := by
  rcases fsAllocInode_cases hE w with ⟨j, io, -, -, -, ha⟩ | ⟨e', io, ha, he, hused⟩
  · cases ha.symm.trans h
  · cases ha.symm.trans h
    exact ⟨he, hused, rfl⟩

end RojocOS.Fs
