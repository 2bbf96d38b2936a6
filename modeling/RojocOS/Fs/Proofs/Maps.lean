/-
The block map `encrypt_block` marks and the one the allocator consults.

# Two maps

`encrypt_block` sets byte `block_usage_offset + b` of the disk.
`search_free_blocks` and `are_blocks_avaiblable` look at byte
`avail_block_table_offset + b`, and `fs_init` never sets that offset, so
it stays 0: the allocator's map is the start of the metadata. Nothing
ever marks it. `set_availability` is only called with `ZERO`, and the
inode table begins at byte 12 with the entry of inode 0, whose reference
count no call raises (`Head`).

# What follows

Over every run the sixteen bytes the allocator looks at stay zero
(`fsRun_head`), so it offers the whole volume each time it is asked. The
maps agree exactly while there is nothing to agree on: while no block of
a live file has been encrypted (`maps_agree_iff`).
-/
import RojocOS.Fs.Proofs.Steady

namespace RojocOS.Fs

open ByteMap Prog

variable {E : FsEnv} {P : Nat → Prop} {aba : Option Nat} {b n new v : Nat}
  {disk' : ByteMap} {w' : FsWorld}
variable {disk e : ByteMap} {ino offset size : Nat} {w : FsWorld} {op : FsOp}

-- ==== the free map

/-- The disk is zero at the addresses of `P`. -/
def Zeroed (P : Nat → Prop) (disk : ByteMap) : Prop := ∀ a, P a → disk a = 0

/-- An entry, or the front of it, that is zero where it has to be. -/
theorem Zeroed.copy_entry (h : Zeroed P disk)
    (he : ∀ x, P (entryAddr ino + x) → e x = 0) :
    Zeroed P (copy disk (entryAddr ino) e 0 n) := by
  intro x hx
  by_cases hin : entryAddr ino ≤ x ∧ x < entryAddr ino + n
  · rw [copy_of_mem hin, Nat.zero_add]
    exact he _ ((Nat.add_sub_cancel' hin.1).symm ▸ hx)
  · rw [copy_of_not_mem hin]
    exact h x hx

/-- The addresses stay clear when only zeros are written to them. -/
theorem Zeroed.discipline (E : FsEnv) (P : Nat → Prop) :
    Discipline E (fun src start _ => (∀ a, P a → a < u64 start) ∨ src = ZERO)
      fun w w' => Zeroed P w.disk → Zeroed P w'.disk where
  refl _ h := h
  trans h1 h2 h := h2 (h1 h)
  read start size w h := by
    unfold fsdr
    split <;> exact h
  write src start size hW w h := by
    have hcopy : ∀ n, Zeroed P (copy w.disk (u64 start) src 0 n) := by
      intro n x hx
      rcases hW with hlt | rfl
      · rw [copy_of_not_mem (by have := hlt x hx; omega)]
        exact h x hx
      · unfold copy
        split
        · rfl
        · exact h x hx
    unfold fsdw
    split <;> exact hcopy _

theorem Zeroed.of_low (hP : ∀ a, P a → Low a)
    (hlow : ∀ a, Low a → w'.disk a = w.disk a) (h : Zeroed P w.disk) : Zeroed P w'.disk :=
  fun a ha => (hlow a (hP a ha)).trans (h a ha)

/-- The end of `fs_write` keeps the addresses clear if the entry it writes
is clear there. -/
theorem writeEnd_zeroed (h32 : ino < 2 ^ 32) (h : Zeroed P w.disk)
    (he : ∀ x, P (entryAddr ino + x) → Entry.setSize e (u64 (offset + size)) x = 0) :
    Zeroed P (writeEnd E ino size offset aba new e w).2.disk := by
  have hd := Zeroed.discipline E P
  have hentry : ∀ n, Zeroed P (copy w.disk (u64 (entryAddr ino))
      (Entry.setSize e (u64 (offset + size))) 0 n) := by
    intro n
    rw [u64_entryAddr h32]
    exact h.copy_entry he
  have hwrite : Zeroed P (fsdw E (Entry.setSize e (u64 (offset + size))) (entryAddr ino) 304
      w).2.disk := by
    unfold fsdw
    split <;> exact hentry _
  have hclear : Keeps (fun w w' => Zeroed P w.disk → Zeroed P w'.disk)
      (Prog.when (aba = some 0) (clearAvailability E fsdesc (Entry.startBlock e)
        (subU32 (sizeToBlock (u64 (offset + size))) new) 0) >>= fun _ => pure size) := by
    refine hd.bind (Keeps.when hd.refl ?_) fun _ => hd.pure _
    exact hd.walk.clearAvailability _ _ _ fun _ _ _ => .inr rfl
  unfold writeEnd
  rw [Prog.bind_apply]
  rcases hrun : fsdw E (Entry.setSize e (u64 (offset + size))) (entryAddr ino) 304 w
    with ⟨_ | _, w1⟩
  · rw [hrun] at hwrite
    exact hwrite
  · rw [hrun] at hwrite
    exact hclear w1 hwrite

/-- `fs_write` keeps addresses of the inode table clear if the entry it
writes back is clear there. -/
theorem fsWrite_zeroed (hP : ∀ a, P a → Low a) (h32 : ino < 2 ^ 32) (h : Zeroed P w.disk)
    (he : ∀ r w1 e w2, writeFront E ino size offset w = (.ok r, w1) →
      writeRest E fsdesc r.2.2.1 r.2.2.2 offset (sizeToBlock (u64 (offset + size))) r.2.1 w1
        = (.ok e, w2) →
      ∀ x, P (entryAddr ino + x) → Entry.setSize e (u64 (offset + size)) x = 0) :
    Zeroed P (fsWrite E fsdesc ino size offset w).2.disk := by
  have hfront := writeFront_spares (E := E) ino size offset w
  rw [fsWrite_split, Prog.bind_apply]
  rcases hrun : writeFront E ino size offset w with ⟨_ | r, w1⟩
  · rw [hrun] at hfront
    exact h.of_low hP hfront
  rw [hrun] at hfront
  have hrest := writeRest_spares (E := E) r.2.2.1 r.2.2.2 offset
    (sizeToBlock (u64 (offset + size))) r.2.1 w1
  show Zeroed P ((writeRest E fsdesc r.2.2.1 r.2.2.2 offset _ r.2.1
    >>= fun e => writeEnd E ino size offset r.1 r.2.1 e) w1).2.disk
  rw [Prog.bind_apply]
  rcases hrun' : writeRest E fsdesc r.2.2.1 r.2.2.2 offset
    (sizeToBlock (u64 (offset + size))) r.2.1 w1 with ⟨_ | e, w2⟩
  · rw [hrun'] at hrest
    exact (h.of_low hP hfront).of_low hP hrest
  rw [hrun'] at hrest
  exact writeEnd_zeroed h32 ((h.of_low hP hfront).of_low hP hrest) (he r w1 e w2 hrun hrun')

/-- `fs_write`, on any inode number, leaves the allocator's map zero. -/
theorem fsWrite_head (h32 : ino < 2 ^ 32) (size offset : Nat)
    (h : Head w.disk) : Head (fsWrite E fsdesc ino size offset w).2.disk := by
  refine fsWrite_zeroed (fun a ha => by unfold Low; omega) h32 h ?_
  intro r w1 e w2 hrun hrun' x hx
  have hx4 : x < 4 := by
    unfold entryAddr at hx
    omega
  have hsize : Entry.setSize e (u64 (offset + size)) x = e x := store_of_not_mem (by omega)
  rw [hsize, (writeRest_ok hrun').1 x (by omega), (writeFront_spec h32 hrun).same x (by omega),
    entryAt, slice_of_lt (by omega)]
  exact h _ hx

-- ==== the runs

/-- Inode numbers are `uint32_t`. -/
def Typed : FsOp → Prop
  | .write ino _ _ _ => ino < 2 ^ 32
  | _ => True

theorem unrefInode_zeroed (hP : ∀ a, P a → a < 316) (h1 : 1 ≤ v) (h32 : v < 2 ^ 32)
    (h : Zeroed P w.disk) : Zeroed P (unrefInode E fsdesc v w).2.disk := by
  refine (Zeroed.discipline E P).walk.unrefInode (fun src => .inl fun a ha => ?_) w h
  show a < u64 (entryAddr v)
  have := hP a ha
  rw [u64_entryAddr h32]
  unfold entryAddr
  omega

theorem fsAllocInode_zeroed (hP : ∀ a, P a → a < 316) (h : Zeroed P w.disk) :
    Zeroed P (fsAllocInode E fsdesc w).2.disk := by
  refine (Zeroed.discipline E P).fsAllocInode (fun src i h1 hi => .inl fun a ha => ?_) w h
  have h16 : i ≤ 16 := hi
  have := hP a ha
  show a < u64 (entryAddr i)
  rw [u64_entryAddr (by omega)]
  unfold entryAddr
  omega

theorem fsRemove_zeroed (hP : ∀ a, P a → a < 316) (path : Path)
    (h : Zeroed P w.disk) : Zeroed P (fsRemove E fsdesc path w).2.disk :=
  fsRemove_keeps (R := fun w w' => Zeroed P w.disk → Zeroed P w'.disk)
    (fun h₁ h2 h => h2 (h₁ h))
    (fun hw h => h.of_low (fun a ha => Nat.lt_trans (hP a ha) (by decide)) hw)
    (fun _ h1 h32 _ h => unrefInode_zeroed hP h1 h32 h) path w h

/-- One call leaves the allocator's map zero. -/
theorem FsOp.exec_head (ht : Typed op) (h : Head w.disk) : Head (op.exec E w).2.disk := by
  have h316 : ∀ a < 16, a < 316 := fun a ha => Nat.lt_trans ha (by decide)
  have hlow : ∀ a < 16, Low a := fun a ha => Nat.lt_trans ha (by decide)
  cases op with
  | allocInode =>
    rw [FsOp.exec, bind_pure_state]
    exact fsAllocInode_zeroed h316 h
  | touch path value =>
    rw [FsOp.exec, bind_pure_state]
    exact Zeroed.of_low hlow (fsTouch_spares path value w) h
  | read fuel ino size offset =>
    rw [FsOp.exec, bind_pure_state]
    exact Zeroed.of_low hlow (fsRead_spares fuel ino size offset w) h
  | remove path =>
    rw [FsOp.exec, bind_pure_state]
    exact fsRemove_zeroed h316 path h
  | write ino buf size offset =>
    rw [FsOp.exec, bind_of_ok (x := Prog.modify _) rfl, bind_pure_state]
    exact fsWrite_head ht size offset h

theorem fsRun_head (hrun : FsRun E (fun _ => Typed) (start E) w) : Head w.disk := by
  refine hrun.invariant E (fun w => Head w.disk) (fun w op h ht _ => op.exec_head ht h) ?_
  rw [start_disk E]
  exact fun _ _ => rfl

-- ==== idle writes

/-- The calls that encrypt nothing: of the writes, those refused and
those that ask for no new block at a block boundary. -/
def Idle (w : FsWorld) : FsOp → Prop
  | .write ino _ size offset => ino < 2 ^ 32
      ∧ (FS_IO_MAX_SIZE < size ∨ Entry.size (entryAt w.disk ino) < offset
        ∨ (sizeToBlock (u64 (offset + size)) = Entry.blockCount (entryAt w.disk ino)
          ∧ offset % 4096 = 0))
  | _ => True

/-- No entry of the table has a block. -/
def NoBlocks (disk : ByteMap) : Prop :=
  ∀ i < 16, Entry.blockCount (entryAt disk i) = 0

theorem NoBlocks.of_low (h : NoBlocks disk)
    (hlow : ∀ a, Low a → disk' a = disk a) : NoBlocks disk' := by
  intro i hi
  rw [entryAt_of_low hlow hi]
  exact h i hi

theorem NoBlocks.writeEntry (h : NoBlocks disk) (he : ino < 16 → Entry.blockCount e = 0) :
    NoBlocks (copy disk (entryAddr ino) e 0 304) := by
  intro i hi
  by_cases hne : ino = i
  · subst hne
    exact (load_entryAt_copy (by omega)).trans (he hi)
  · rw [entryAt_copy_other hne]
    exact h i hi

theorem FsOp.exec_noBlocks (hE : E.Reliable) (hc : Idle w op)
    (hret : returned (op.exec E w).1) (h : NoBlocks w.disk) : NoBlocks (op.exec E w).2.disk := by
  refine exec_table hE (fun hd h => h.of_low hd) (fun h _ h16 _ v _ => h.writeEntry fun _ => ?_)
    (fun h _ h16 _ => h.writeEntry fun _ => ?_) (fun ino buf size offset hop h => ?_) h
  · exact (setRef_fields _ _).2.2.trans (h _ h16)
  · unfold releasedEntry
    split
    · exact load_eq_zero.mpr fun _ _ _ => rfl
    · exact (setRef_fields _ _).2.2.trans (h _ h16)
  subst hop
  rcases exec_write hE hret with ⟨hd, -⟩ | ⟨n, hrun⟩
  · rw [hd]
    exact h
  obtain ⟨-, e', hw⟩ := fsWrite_ok hc.1 hrun
  rcases hc.2 with hmax | hoff | ⟨htotal, -⟩
  · exact absurd hw.max (Nat.not_le.mpr hmax)
  · exact absurd hw.inside (Nat.not_le.mpr hoff)
  -- no new block, so nothing is moved
  have hstay : ¬ Moves { w with buf := buf } ino size offset := by
    rintro ⟨k, hk, -⟩
    have hnew : newBlocks (entryAt w.disk ino) size offset = 0 := by
      unfold newBlocks
      rw [htotal]
      unfold subU32 u32
      omega
    exact Nat.not_lt_zero k (hnew ▸ hk)
  refine (h.writeEntry fun hi => hw.count.trans (htotal.trans (h ino hi))).of_low fun a ha => ?_
  exact hw.table_above 0 (Nat.zero_le _) (fun hmoves => absurd hmoves hstay) a ha
    (Nat.zero_le a)

-- ==== the theorem

/-- Data block `b` of the volume belongs to the live file `i`, and
`encrypt_block` has written it. -/
def FileBlock (w : FsWorld) (i b : Nat) : Prop :=
  Live w i ∧ b < fsdesc.blockCount
    ∧ Entry.startBlock (entryAt w.disk i) ≤ b
    ∧ b < Entry.startBlock (entryAt w.disk i) + Entry.blockCount (entryAt w.disk i)
    ∧ w.disk (fsdesc.blockUsageOffset + b) ≠ 0

/-- Some answer of the allocator offers a range with `b` in it. -/
def Offered (E : FsEnv) (w : FsWorld) (b : Nat) : Prop :=
  (∃ n s w', searchFreeBlocks E fsdesc n w = (.ok s, w') ∧ s ≤ b ∧ b < s + n)
    ∨ ∃ s n w', areBlocksAvaiblable E fsdesc s n w = (.ok 1, w') ∧ s ≤ b ∧ b < s + n

/-- The allocator offers no block that a live file has been given. -/
def MapsAgree (E : FsEnv) (w : FsWorld) : Prop :=
  ∀ i b, FileBlock w i b → ¬ Offered E w b

/-- On a zero map the search takes the first range it tries. -/
theorem searchFreeFrom_head (hE : E.Reliable) (n s : Nat) :
    ∀ rest c addr w, Head w.disk → addr + rest ≤ 16 → c + rest = n →
      ∃ io, searchFreeFrom E n rest s c addr w = (.ok s, { w with io := io }) := by
  intro rest
  induction rest with
  | zero =>
    intro c addr w _ _ hc
    unfold searchFreeFrom
    rw [if_pos (by omega)]
    exact ⟨w.io, rfl⟩
  | succ rest ih =>
    intro c addr w h haddr hc
    have hu : u64 addr = addr := Nat.mod_eq_of_lt (by omega)
    have hz : slice w.disk (u64 addr) 1 0 = 0 := by
      rw [hu, slice_of_lt (by omega)]
      exact h _ (by omega)
    unfold searchFreeFrom
    rw [if_pos (by omega), bind_of_ok (fsdr_reliable hE _ _ _),
      if_neg (fun hne => hne hz)]
    exact ih (c + 1) (addr + 1) { w with io := w.io + 1 } h (by omega) (by omega)

/-- So every block of the volume is on offer. -/
theorem Head.offered (hE : E.Reliable) (h : Head w.disk)
    (hb : b < 16) : Offered E w b := by
  obtain ⟨io, hrun⟩ := searchFreeFrom_head hE 16 0 16 0 0 w h (by omega) (by omega)
  exact .inl ⟨16, 0, _, hrun, Nat.zero_le b, by omega⟩

/-- In every state of every run the maps agree exactly when no block of
a live file has been encrypted; so they do in the runs whose calls are
idle. -/
theorem maps_agree_iff (hE : E.Reliable) (w : FsWorld) :
    (FsRun E (fun _ => Typed) (start E) w → (MapsAgree E w ↔ ∀ i b, ¬ FileBlock w i b))
    ∧ (FsRun E Idle (start E) w → MapsAgree E w) := by
  refine ⟨fun hrun => ⟨fun h i b hb => ?_, fun h i b hb => absurd hb (h i b)⟩, fun hrun => ?_⟩
  · exact h i b hb ((fsRun_head hrun).offered hE hb.2.1)
  · have hno : NoBlocks w.disk := by
      refine hrun.invariant E (fun w => NoBlocks w.disk)
        (fun w op h hc hret => op.exec_noBlocks hE hc hret h) ?_
      rw [start_disk E]
      intro i _
      refine load_eq_zero.mpr fun x _ _ => ?_
      unfold entryAt slice
      split <;> rfl
    intro i b ⟨hlive, _, h1, h2, _⟩
    have := hno i hlive.1
    omega

/-- A file that stays empty. -/
def emptyFile : FsWorld :=
  runAll plainEnv (start plainEnv) [.allocInode, .write 1 zero 0 0]

theorem maps_agree_emptyFile : Live emptyFile 1 ∧ MapsAgree plainEnv emptyFile := by
  refine ⟨⟨by decide, by decide +kernel⟩, (maps_agree_iff plainEnv_reliable emptyFile).2 ?_⟩
  refine runAll_run plainEnv _ _ ⟨trivial, by decide +kernel, ⟨by decide, ?_⟩,
    by decide +kernel, trivial⟩
  exact .inr (.inr ⟨by decide +kernel, rfl⟩)

/-- One byte in the first block. -/
def oneBlockFile : FsWorld :=
  runAll plainEnv (start plainEnv) [.allocInode, .write 1 (fun _ => 65) 1 0]

/-- That block is marked in one map and free in the other: the search
and the probe both offer it. -/
theorem written_block_offered :
    FsRun plainEnv (fun _ => Typed) (start plainEnv) oneBlockFile
      ∧ FileBlock oneBlockFile 1 0
      ∧ (searchFreeBlocks plainEnv fsdesc 1 oneBlockFile).1.toOption = some 0
      ∧ (areBlocksAvaiblable plainEnv fsdesc 0 1 oneBlockFile).1.toOption = some 1
      ∧ ¬ MapsAgree plainEnv oneBlockFile := by
  have hrun : FsRun plainEnv (fun _ => Typed) (start plainEnv) oneBlockFile :=
    runAll_run plainEnv _ _ ⟨trivial, by decide +kernel, (by decide : 1 < 2 ^ 32),
      by decide +kernel, trivial⟩
  have hblock : FileBlock oneBlockFile 1 0 :=
    ⟨⟨by decide, by decide +kernel⟩, by decide, by decide +kernel, by decide +kernel,
      by decide +kernel⟩
  refine ⟨hrun, hblock, by decide +kernel, by decide +kernel, fun h => ?_⟩
  exact h 1 0 hblock ((fsRun_head hrun).offered plainEnv_reliable (by decide))

end RojocOS.Fs
