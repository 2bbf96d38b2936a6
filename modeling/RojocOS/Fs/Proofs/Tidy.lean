/-
The inode table over a whole run: the invariant `Tidy` and the steps
that keep it.

`Tidy` says that of any two live inodes at most one has data, and that
entries without references or without data are empty. It is an invariant
of the runs whose writes meet `Apart`: a write changes its file's number
of blocks only while all other live files are empty. No fact about the
allocator's answer is needed, only where the writes of `fs_write` can
land:

- data and usage writes never reach the inode table (`Footprint.lean`);
- the entry written is the file's own;
- the bytes cleared at the end of a relocation are among the first 32 of
  the disk, which `Tidy` knows to be zero already.
-/
import RojocOS.Fs.Proofs.Atomic

namespace RojocOS.Fs

open ByteMap Prog

variable {E : FsEnv} {a x : Nat} {addr : Nat → Nat} {b buf disk' : ByteMap}
variable {disk e e' : ByteMap} {i ino offset size : Nat} {w w' : FsWorld} {op : FsOp}

-- ==== the invariant

/-- What a well-behaved run keeps true of the inode table. -/
structure Tidy (disk : ByteMap) : Prop where
  /-- The metadata and inode 0 stay zero. -/
  low : ∀ a, a < 316 → disk a = 0
  /-- No file is larger than the volume. -/
  count : ∀ i, i < 16 → Entry.blockCount (entryAt disk i) ≤ 16
  /-- A free entry is empty. -/
  dead : ∀ i, i < 16 → Entry.ref (entryAt disk i) = 0 → Entry.size (entryAt disk i) = 0
  /-- An empty file has no blocks. -/
  empty : ∀ i, i < 16 → Entry.size (entryAt disk i) = 0 →
    Entry.blockCount (entryAt disk i) = 0
  /-- Of two live files at most one has data. -/
  one : ∀ i j, i < 16 → j < 16 → i ≠ j →
    0 < Entry.ref (entryAt disk i) → 0 < Entry.ref (entryAt disk j) →
    Entry.size (entryAt disk i) = 0 ∨ Entry.size (entryAt disk j) = 0

theorem Tidy.zero : Tidy ByteMap.zero := by
  have hz : ∀ i b k, load (entryAt ByteMap.zero i) b k = 0 := by
    intro i b k
    refine load_eq_zero.mpr fun x _ _ => ?_
    unfold entryAt slice ByteMap.zero
    split <;> rfl
  refine ⟨fun _ _ => rfl, ?_, ?_, ?_, ?_⟩
  · intro i _
    unfold Entry.blockCount
    rw [hz]
    omega
  · exact fun i _ _ => hz i _ _
  · exact fun i _ _ => hz i _ _
  · exact fun i _ _ _ _ _ _ => .inl (hz i _ _)

/-- The invariant reads the inode table only. -/
theorem Tidy.congr (h : ∀ a, Low a → disk' a = disk a) (ht : Tidy disk) : Tidy disk' := by
  have he : ∀ i < 16, entryAt disk' i = entryAt disk i :=
    fun i hi => entryAt_of_low h hi
  refine ⟨?_, ?_, ?_, ?_, ?_⟩
  · intro a ha
    rw [h a (by unfold Low; omega)]
    exact ht.low a ha
  · intro i hi
    rw [he i hi]
    exact ht.count i hi
  · intro i hi
    rw [he i hi]
    exact ht.dead i hi
  · intro i hi
    rw [he i hi]
    exact ht.empty i hi
  · intro i j hi hj
    rw [he i hi, he j hj]
    exact ht.one i j hi hj

/-- Writing entry `i ≥ 1` keeps the first 316 bytes. -/
theorem copy_entry_low (hi : 1 ≤ i)
    (ha : a < 316) : copy disk (entryAddr i) e 0 304 a = disk a := by
  refine copy_of_not_mem fun h => ?_
  unfold entryAddr at h
  omega

/-- Replacing one entry: the conditions on the new one. -/
theorem Tidy.writeEntry (ht : Tidy disk) (hi : 1 ≤ i)
    (hcount : Entry.blockCount e ≤ 16) (hdead : Entry.ref e = 0 → Entry.size e = 0)
    (hempty : Entry.size e = 0 → Entry.blockCount e = 0)
    (hone : ∀ j < 16, j ≠ i → 0 < Entry.ref (entryAt disk j) → 0 < Entry.ref e →
      Entry.size e = 0 ∨ Entry.size (entryAt disk j) = 0) :
    Tidy (copy disk (entryAddr i) e 0 304) := by
  have hother : ∀ j ≠ i, entryAt (copy disk (entryAddr i) e 0 304) j = entryAt disk j :=
    fun j hji => entryAt_copy_other (Ne.symm hji)
  have href : Entry.ref (entryAt (copy disk (entryAddr i) e 0 304) i)
      = Entry.ref e := load_entryAt_copy (by omega)
  have hsize : Entry.size (entryAt (copy disk (entryAddr i) e 0 304) i)
      = Entry.size e := load_entryAt_copy (by omega)
  have hcnt : Entry.blockCount (entryAt (copy disk (entryAddr i) e 0 304) i)
      = Entry.blockCount e := load_entryAt_copy (by omega)
  refine ⟨?_, ?_, ?_, ?_, ?_⟩
  · intro a ha
    rw [copy_entry_low hi ha]
    exact ht.low a ha
  · intro j hj
    by_cases hji : j = i
    · subst hji
      rw [hcnt]
      exact hcount
    · rw [hother j hji]
      exact ht.count j hj
  · intro j hj
    by_cases hji : j = i
    · subst hji
      rw [href, hsize]
      exact hdead
    · rw [hother j hji]
      exact ht.dead j hj
  · intro j hj
    by_cases hji : j = i
    · subst hji
      rw [hsize, hcnt]
      exact hempty
    · rw [hother j hji]
      exact ht.empty j hj
  · intro j k hj hk hjk hrj hrk
    by_cases hji : j = i
    · subst hji
      rw [hother k (Ne.symm hjk)] at hrk ⊢
      rw [href] at hrj
      rw [hsize]
      exact hone k hk (Ne.symm hjk) hrk hrj
    · rw [hother j hji] at hrj ⊢
      by_cases hki : k = i
      · subst hki
        rw [href] at hrk
        rw [hsize]
        exact (hone j hj hji hrj hrk).symm
      · rw [hother k hki] at hrk ⊢
        exact ht.one j k hj hk hjk hrj hrk

-- ==== allocation and release

/-- A search that looks at the byte of one index after the other stops at
the first zero. -/
theorem firstZero_cases {loop : Nat → Nat → FsM Nat}
    (hend : ∀ i, loop 0 i = Prog.stop (.err (-enospc)))
    (hturn : ∀ n i w, i < 16 → loop (n + 1) i w
      = (if w.disk (addr i) = 0 then pure i else loop n (i + 1)) { w with io := w.io + 1 })
    (n : Nat) : ∀ i w, i + n ≤ 16 →
      (∃ k io, loop n i w = (.ok k, { w with io := io })
          ∧ i ≤ k ∧ k < i + n ∧ w.disk (addr k) = 0)
      ∨ ∃ io, loop n i w = (.error (.err (-enospc)), { w with io := io })
          ∧ ∀ k, i ≤ k → k < i + n → w.disk (addr k) ≠ 0 := by
  induction n with
  | zero =>
    intro i w _
    rw [hend]
    exact .inr ⟨w.io, rfl, fun k h1 h2 => absurd h2 (Nat.not_lt.mpr h1)⟩
  | succ n ih =>
    intro i w hi
    rw [hturn n i w (by omega)]
    by_cases hz : w.disk (addr i) = 0
    · rw [if_pos hz]
      exact .inl ⟨i, w.io + 1, rfl, by omega, by omega, hz⟩
    · rw [if_neg hz]
      rcases ih (i + 1) { w with io := w.io + 1 } (by omega) with
        ⟨k, io, hr, h1, h2, hk⟩ | ⟨io, hr, hfull⟩
      · exact .inl ⟨k, io, hr, by omega, by omega, hk⟩
      · refine .inr ⟨io, hr, fun k h1 h2 => ?_⟩
        rcases Nat.eq_or_lt_of_le h1 with rfl | hlt
        · exact hz
        · exact hfull k hlt (by omega)

/-- The reference count is the first byte. -/
theorem ref_eq_zero : Entry.ref (entryAt disk i) = 0 ↔ disk (entryAddr i) = 0 := by
  unfold Entry.ref
  rw [load_entryAt (by omega), load_eq_zero]
  refine ⟨fun h => h _ (Nat.le_refl _) (by omega), fun h x h1 h2 => ?_⟩
  rwa [show x = entryAddr i by omega]

/-- The entry `fs_alloc_inode` and `unref_inode` write: same fields, a
new reference count. -/
theorem setRef_fields (e : ByteMap) (v : Nat) :
    Entry.ref (Entry.setRef e v) = v % 256
      ∧ Entry.size (Entry.setRef e v) = Entry.size e
      ∧ Entry.blockCount (Entry.setRef e v) = Entry.blockCount e := by
  refine ⟨load_store_same _ _ _ _, ?_, ?_⟩
  · exact load_store_of_disjoint (by omega)
  · exact load_store_of_disjoint (by omega)

/-- `fs_alloc_inode` gives a free entry of the table its reference, or
finds none and changes nothing. -/
theorem fsAllocInode_cases (hE : E.Reliable) (w : FsWorld) :
    (∃ i io, 1 ≤ i ∧ i < 16 ∧ Entry.ref (entryAt w.disk i) = 0
        ∧ fsAllocInode E fsdesc w = (.ok i, { w with
            disk := copy w.disk (entryAddr i) (Entry.setRef (entryAt w.disk i)
              (Entry.ref (entryAt w.disk i) + 1)) 0 304
            io := io }))
      ∨ ∃ e io, fsAllocInode E fsdesc w = (.error e, { w with io := io })
        ∧ e = .err (-enospc) ∧ ∀ i, 1 ≤ i → i < 16 → Entry.ref (entryAt w.disk i) ≠ 0 := by
  have hturn : ∀ n i (w : FsWorld), i < 16 → searchInodeFrom E fsdesc (n + 1) i w
      = (if w.disk (entryAddr i) = 0 then pure i else searchInodeFrom E fsdesc n (i + 1))
          { w with io := w.io + 1 } := by
    intro n i w hi
    have hu : u64 (fsdesc.inodeTableOffset + i * 304) = entryAddr i := u64_entryAddr (by omega)
    rw [searchInodeFrom, bind_of_ok (fsdr_reliable hE _ _ _), hu]
    rfl
  unfold fsAllocInode searchAvailableInode
  rcases firstZero_cases (fun _ => rfl) hturn (fsdesc.inodeCount - 1) 1 w (by decide) with
    ⟨i, io, hs, h1, h16, hfree⟩ | ⟨io, hs, hfull⟩
  · have h16 : i < 16 := h16
    have h32 : i < 2 ^ 32 := by omega
    rw [bind_of_ok hs,
      show fsdesc.inodeTableOffset + i * 304 = entryAddr i from rfl,
      bind_of_ok (fsdr_entry hE h32 _), bind_of_ok (fsdw_entry hE h32 _ _)]
    exact .inl ⟨i, _, h1, h16, ref_eq_zero.mpr hfree, rfl⟩
  · rw [bind_of_error hs]
    exact .inr ⟨_, io, rfl, rfl, fun i h1 h16 hz => hfull i h1 h16 (ref_eq_zero.mp hz)⟩

/-- The entry taken was free, hence empty; only its reference count
changes. -/
theorem Tidy.alloc (ht : Tidy disk) (h1 : 1 ≤ i) (h16 : i < 16)
    (href : Entry.ref (entryAt disk i) = 0) (v : Nat) :
    Tidy (copy disk (entryAddr i) (Entry.setRef (entryAt disk i) v) 0 304) := by
  have hsize := ht.dead i h16 href
  have hcnt := ht.empty i h16 hsize
  obtain ⟨-, hs', hc'⟩ := setRef_fields (entryAt disk i) v
  refine ht.writeEntry h1 ?_ ?_ ?_ ?_
  · exact Nat.le_trans (Nat.le_of_eq (hc'.trans hcnt)) (by omega)
  · exact fun _ => hs'.trans hsize
  · exact fun _ => hc'.trans hcnt
  · exact fun _ _ _ _ _ => .inl (hs'.trans hsize)

/-- A cleared entry has no blocks, so the loop over them never turns. -/
theorem releaseEntry_of_zero (d : FsDescriptor) (w : FsWorld) (hz : Entry.ref e = 0) :
    releaseEntry E d e w = (.ok (fill e 0 304 0), w) := by
  have hb : Entry.blockCount (fill e 0 304 0) = 0 := load_fill_zero (by omega)
  unfold releaseEntry
  rw [if_pos hz]
  rw [hb]
  rfl

theorem releaseEntry_of_ne (d : FsDescriptor) (w : FsWorld)
    (hz : Entry.ref e ≠ 0) : releaseEntry E d e w = (.ok e, w) := by
  unfold releaseEntry
  rw [if_neg hz]
  rfl

/-- The entry `unref_inode` writes back: cleared with the last
reference. -/
def releasedEntry (e : ByteMap) : ByteMap :=
  if Entry.ref e = 1 then zero else Entry.setRef e (Entry.ref e - 1)

def unrefDisk (disk : ByteMap) (ino : Nat) : ByteMap :=
  copy disk (entryAddr ino) (releasedEntry (entryAt disk ino)) 0 304

/-- `unref_inode` drops a reference, or fails its assertion. -/
theorem unrefInode_cases (hE : E.Reliable) (h32 : ino < 2 ^ 32) (w : FsWorld) :
    (0 < Entry.ref (entryAt w.disk ino)
        ∧ unrefInode E fsdesc ino w
          = (.ok (), { w with disk := unrefDisk w.disk ino, io := w.io + 1 + 1 }))
      ∨ (Entry.ref (entryAt w.disk ino) = 0
        ∧ unrefInode E fsdesc ino w = (.error .panic, { w with io := w.io + 1 })) := by
  unfold unrefInode
  rw [show fsdesc.inodeTableOffset + ino * 304 = entryAddr ino from rfl,
    bind_of_ok (fsdr_entry hE h32 w)]
  generalize he : entryAt w.disk ino = e
  by_cases hr : 0 < Entry.ref e
  case neg =>
    right
    rw [bind_of_error (assert_of_not hr)]
    exact ⟨by omega, rfl⟩
  case pos =>
    left
    refine ⟨hr, ?_⟩
    rw [assert_bind hr]
    have hlt : Entry.ref e < 256 := load_lt e 0 1
    have href : Entry.ref (Entry.setRef e (Entry.ref e - 1)) = Entry.ref e - 1 :=
      (setRef_fields e _).1.trans (Nat.mod_eq_of_lt (by omega))
    unfold unrefDisk releasedEntry
    rw [he]
    by_cases h1 : Entry.ref e = 1
    · rw [if_pos h1, bind_of_ok (releaseEntry_of_zero _ _ (by rw [href, h1])),
        fsdw_entry hE h32]
      congr 2
      apply copy_congr
      intro i hi
      rw [fill_of_mem (by omega)]
      rfl
    · rw [if_neg h1, bind_of_ok (releaseEntry_of_ne _ _ (by omega)), fsdw_entry hE h32]

theorem Tidy.unref (ht : Tidy disk) (h1 : 1 ≤ ino) (h16 : ino < 16)
    (hr : 0 < Entry.ref (entryAt disk ino)) : Tidy (unrefDisk disk ino) := by
  unfold unrefDisk releasedEntry
  by_cases hlast : Entry.ref (entryAt disk ino) = 1
  · rw [if_pos hlast]
    exact ht.writeEntry h1 (by decide) (fun _ => rfl) (fun _ => rfl) fun _ _ _ _ _ => .inl rfl
  · rw [if_neg hlast]
    obtain ⟨href', hs', hc'⟩ := setRef_fields (entryAt disk ino) (Entry.ref (entryAt disk ino) - 1)
    have hlt : Entry.ref (entryAt disk ino) < 256 := load_lt _ 0 1
    refine ht.writeEntry h1 ?_ ?_ ?_ ?_
    · exact Nat.le_trans (Nat.le_of_eq hc') (ht.count ino h16)
    · intro h
      omega
    · exact fun h => hc'.trans (ht.empty ino h16 (hs'.symm.trans h))
    · intro j hj hji hrj _
      rcases ht.one ino j h16 hj (Ne.symm hji) hr hrj with h | h
      · exact .inl (hs'.trans h)
      · exact .inr h

-- ==== creation and removal

/-- The one write of `fs_remove` into the inode table is that of
`unref_inode`, and it is not made on inode 0. -/
theorem fsRemove_keeps {R : FsWorld → FsWorld → Prop}
    (ht : ∀ {a b c}, R a b → R b c → R a c)
    (hlow : ∀ {w w'}, (∀ a, Low a → w'.disk a = w.disk a) → R w w')
    (hunref : ∀ v, 1 ≤ v → v < 2 ^ 32 → Keeps R (unrefInode E fsdesc v))
    (path : Path) : Keeps R (fsRemove E fsdesc path) := by
  have hs : ∀ {α : Type} {x : FsM α}, Spares Low x → Keeps R x :=
    fun h w => hlow (h w)
  have hr : ∀ w, R w w := fun w => hlow fun _ _ => rfl
  have hb : ∀ {α β : Type} {x : FsM α} {f : α → FsM β}, Keeps R x →
      (∀ a, Keeps R (f a)) → Keeps R (x >>= f) :=
    fun hx hf => Keeps.bind ht hx hf
  refine hb (hs (splitPath_spares _)) fun pc => ?_
  refine hb (hs (searchNode_spares _)) fun r => ?_
  refine hb (hs (findChild_spares _ _ _ _)) fun found => ?_
  cases found with
  | none => exact hs (Spares.stop _)
  | some i =>
    have hidx : Node.childIndex r.2 i < 2 ^ 32 := load_lt _ _ 4
    refine hb (hs (Spares.failIf _ _)) fun _ => ?_
    refine hb (hs (nodeWrite_spares (u32_lt _))) fun _ => ?_
    refine hb (hs (fsdr_spares _ _)) fun nd => ?_
    refine hb ?_ fun _ => hb (hs (nodeWrite_spares hidx)) fun _ =>
      hs (usageWrite_spares hidx)
    by_cases hv : Node.value nd = 0
    · rw [when_of_not (fun h => h hv)]
      exact Keeps.pure hr _
    · refine Keeps.when hr (Keeps.ignoreErr ?_)
      exact hunref _ (Nat.pos_of_ne_zero hv) (load_lt _ _ 4)

-- ==== one call

/-- The state a call leaves is that of the operation. -/
theorem exec_state (op : FsOp) (w : FsWorld) : (op.exec E w).2 = match op with
    | .allocInode => (fsAllocInode E fsdesc w).2
    | .touch path value => (fsTouch E fsdesc path value w).2
    | .write ino buf size offset =>
      (fsWrite E fsdesc ino size offset { w with buf := buf }).2
    | .read fuel ino size offset => (fsRead E fsdesc fuel ino size offset w).2
    | .remove path => (fsRemove E fsdesc path w).2 := by
  cases op <;> exact bind_pure_state _ _ _

/-- A write that comes back answers with an error code and has changed
nothing, or it went through. -/
theorem exec_write (hE : E.Reliable)
    (hret : returned ((FsOp.write ino buf size offset).exec E w).1) :
    (((FsOp.write ino buf size offset).exec E w).2.disk = w.disk
        ∧ ((FsOp.write ino buf size offset).exec E w).2.rng = w.rng)
      ∨ ∃ n, fsWrite E fsdesc ino size offset { w with buf := buf }
        = (.ok n, ((FsOp.write ino buf size offset).exec E w).2) := by
  have hexec : (FsOp.write ino buf size offset).exec E w
      = (fsWrite E fsdesc ino size offset >>= fun n => pure (n : Int)) { w with buf := buf } := rfl
  rw [hexec] at hret ⊢
  rcases hrun : fsWrite E fsdesc ino size offset { w with buf := buf } with ⟨e | n, w'⟩
  · rw [bind_of_error hrun] at hret ⊢
    cases e with
    | err c => exact .inl (fsWrite_errKeeps hE (ReadOnly.discipline E) (fun _ _ _ => ⟨rfl, rfl⟩)
        ino size offset { w with buf := buf } c w' hrun)
    | _ => exact hret.elim
  · rw [bind_of_ok hrun]
    exact .inr ⟨n, rfl⟩

/-- What an invariant of the inode table has to stand: a reference given
to a free entry, a reference taken back, and the writes. -/
theorem exec_table (hE : E.Reliable) {I : ByteMap → Prop}
    (hlow : ∀ {d d' : ByteMap}, (∀ a, Low a → d' a = d a) → I d → I d')
    (halloc : ∀ {d i}, I d → 1 ≤ i → i < 16 → Entry.ref (entryAt d i) = 0 → ∀ v, v = 1 →
      I (copy d (entryAddr i) (Entry.setRef (entryAt d i) v) 0 304))
    (hunref : ∀ {d v}, I d → 1 ≤ v → v < 16 → 0 < Entry.ref (entryAt d v) → I (unrefDisk d v))
    (hwrite : ∀ ino buf size offset, op = .write ino buf size offset → I w.disk →
      I ((FsOp.write ino buf size offset).exec E w).2.disk)
    (h : I w.disk) : I (op.exec E w).2.disk := by
  cases op with
  | allocInode =>
    rw [exec_state]
    rcases fsAllocInode_cases hE w with ⟨i, io, h1, h16, href, hrun⟩ | ⟨e, io, hrun, -⟩
    · rw [hrun]
      exact halloc h h1 h16 href _ (by rw [href])
    · rw [hrun]
      exact h
  | touch path value =>
    rw [exec_state]
    exact hlow (fsTouch_spares path value w) h
  | read fuel ino size offset =>
    rw [exec_state]
    exact hlow (fsRead_spares fuel ino size offset w) h
  | write ino buf size offset => exact hwrite ino buf size offset rfl h
  | remove path =>
    rw [exec_state]
    refine fsRemove_keeps (fun h₁ h2 h => h2 (h₁ h))
      hlow (fun v h1 h32 w h => ?_) path w h
    -- past the end of the table, no entry of it is written
    by_cases h16 : v < 16
    · rcases unrefInode_cases hE h32 w with ⟨hr, hun⟩ | ⟨-, hun⟩
      · rw [hun]
        exact hunref h h1 h16 hr
      · rw [hun]
        exact h
    · exact hlow (unrefInode_spares (Nat.not_lt.mp h16) h32 w) h

-- ==== the condition

/-- The steps of a run that keeps its files apart. A write names a live
inode and stays inside the volume, and it changes its file's number of
blocks only while every other live file is empty. The value given to
`fs_touch` is the `uint32_t` it is declared as. -/
def Apart (w : FsWorld) : FsOp → Prop
  | .write ino _ size offset =>
      Live w ino ∧ offset + size ≤ 65536
        ∧ ((offset + size + 4095) / 4096 ≠ Entry.blockCount (entryAt w.disk ino)
          → ∀ j, Live w j → j ≠ ino → Entry.size (entryAt w.disk j) = 0)
  | .touch _ value => value < 2 ^ 32
  | _ => True

/-- The bytes the allocator takes for its map of the volume. -/
def Head (disk : ByteMap) : Prop := ∀ a < 16, disk a = 0

/-- Inode 0 is never live: its reference count is byte 12. -/
theorem Head.pos (h : Head w.disk) (hlive : Live w ino) : 1 ≤ ino := by
  rcases Nat.eq_zero_or_pos ino with rfl | hpos
  · have hzero : Entry.ref (entryAt w.disk 0) = 0 := ref_eq_zero.mpr (h 12 (by decide))
    exact absurd hlive.2 (by omega)
  · exact hpos

theorem Tidy.pos (ht : Tidy w.disk) (hl : Live w ino) : 1 ≤ ino :=
  Head.pos (fun a ha => ht.low a (Nat.lt_trans ha (by decide))) hl

theorem sizeToBlock_small (h : x ≤ 65536) : sizeToBlock (u64 x) = (x + 4095) / 4096 := by
  unfold sizeToBlock u64 u32
  omega

/-- The bytes cleared at the end of a relocation were zero already. -/
theorem Wrote.table_tidy
    (hw : Wrote E ino size offset w w' e') (ht : Tidy w.disk) (hlive : Live w ino) :
    ∀ a, Low a → w'.disk a = copy w.disk (entryAddr ino) e' 0 304 a := by
  intro a ha
  rcases hw.table a ha with h | ⟨h0, hmoves, hlt⟩
  · exact h
  · have hcount := ht.count ino hlive.1
    have hroom := (hw.moved hmoves).1
    rw [h0, copy_entry_low (ht.pos hlive) (by omega)]
    exact (ht.low a (by omega)).symm

/-- A write that meets the condition keeps the invariant. -/
theorem Wrote.tidy (hw : Wrote E ino size offset w w' e') (ht : Tidy w.disk)
    (hc : Apart w (.write ino b size offset)) : Tidy w'.disk := by
  obtain ⟨hlive, hvol, halone⟩ := hc
  have href : Entry.ref e' = Entry.ref (entryAt w.disk ino) :=
    load_congr fun x h1 h2 => hw.front x (by omega)
  have hcnt := hw.count.trans (sizeToBlock_small hvol)
  refine Tidy.congr (hw.table_tidy ht hlive) (ht.writeEntry (ht.pos hlive) ?_ ?_ ?_ ?_)
  · rw [hcnt]
    omega
  · intro h0
    have := hlive.2
    omega
  · intro h0
    rw [hw.length] at h0
    rw [hcnt]
    unfold u64 at h0
    omega
  · intro j hj hji hrj _
    -- either the block count changed, or the file had its data before
    by_cases hb : (offset + size + 4095) / 4096 = Entry.blockCount (entryAt w.disk ino)
    · rcases ht.one ino j hlive.1 hj (Ne.symm hji) hlive.2 hrj with h | h
      · have hb0 := ht.empty ino hlive.1 h
        refine .inl ?_
        rw [hw.length]
        unfold u64
        omega
      · exact .inr h
    · exact .inr (halone hb j ⟨hj, hrj⟩ hji)

/-- Every step that meets the condition keeps the invariant. -/
theorem exec_tidy (hE : E.Reliable) (ht : Tidy w.disk)
    (hc : Apart w op) (hret : returned (op.exec E w).1) : Tidy (op.exec E w).2.disk := by
  refine exec_table hE Tidy.congr (fun h h1 h16 href v _ => h.alloc h1 h16 href v)
    (fun h h1 h16 hr => h.unref h1 h16 hr) (fun ino buf size offset hop _ => ?_) ht
  subst hop
  rcases exec_write hE hret with ⟨hd, -⟩ | ⟨n, hrun⟩
  · rw [hd]
    exact ht
  · obtain ⟨-, e', hw⟩ := fsWrite_ok (Nat.lt_trans hc.1.1 (by decide)) hrun
    exact hw.tidy (b := buf) ht hc

theorem start_disk (E : FsEnv) : (start E).disk = ByteMap.zero := by
  have h : Spares (fun _ => True) (fsInit E FsDescriptor.zero) :=
    Spares.bind (fsdr_spares _ _) fun _ => Spares.pure _
  unfold start
  rw [h.disk_eq]
  rfl

theorem start_tidy (E : FsEnv) : Tidy (start E).disk := by
  rw [start_disk]
  exact Tidy.zero

/-- So does a whole run. -/
theorem FsRun.tidy (hE : E.Reliable) (ht : Tidy w.disk)
    (hrun : FsRun E Apart w w') : Tidy w'.disk :=
  FsRun.invariant E (fun w => Tidy w.disk)
    (fun _ _ ih hc hret => exec_tidy hE ih hc hret) ht hrun

end RojocOS.Fs
