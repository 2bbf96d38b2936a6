/-
What a successful `fs_write` changes on disk.

# The frame

A write may change the entry of its inode, the blocks the file has
afterwards, and the usage bytes of the volume (`WriteFrame`). Every address
`fs_write` computes comes from three numbers it does not compare with the
volume: the block the request starts in, the blocks the file has, and the
blocks of the new end.

# When it holds

The blocks encrypted lie in the file's new range when the request starts
inside the blocks of the file and does not end before the last of them
(`StartsInside`). The range itself lies in the volume exactly when the file
is moved, since only `search_free_blocks` knows how large the volume is, or
when it happens to fit where it stands (`write_frame_iff`). A disk that
fails makes no difference: what a failed access leaves behind lies where
the access was to go.

The byte map `set_availability` clears at the end of a relocation is the
front of the metadata, which is zero in every run (`fsRun_head`), so
clearing it changes nothing.
-/
import RojocOS.Fs.Proofs.Erase
import RojocOS.Fs.Proofs.WriteReach

namespace RojocOS.Fs

open ByteMap Prog

variable {E : FsEnv} {w w' w1 : FsWorld} {ino size offset first index k m total : Nat}
  {aba : Option Nat} {disk disk' e e' : ByteMap}

-- ==== the blocks

/-- Byte `a` is in one of the `total` blocks from `first`, or is a usage
byte of the volume. -/
def Within (first total a : Nat) : Prop :=
  (fsdesc.dataOffset + first * 4096 ≤ a ∧ a < fsdesc.dataOffset + (first + total) * 4096)
    ∨ (fsdesc.blockUsageOffset ≤ a ∧ a < fsdesc.blockUsageOffset + fsdesc.blockCount)

/-- The bytes that stay. -/
def Beyond (first total a : Nat) : Prop := ¬ Within first total a

theorem blockIn_beyond (hroom : first + total ≤ 16)
    (hle : first ≤ u32 index) (hlt : u32 index < first + total) :
    BlockIn fsdesc (Outside (Beyond first total)) index := by
  have hwrap : u32 (u32 index * 4096) = u32 index * 4096 := by
    generalize u32 index = i at hle hlt
    unfold u32
    omega
  generalize hi : u32 index = i at hle hlt hwrap
  refine ⟨fun src a ha hin => ha (.inl ?_), fun a ha hin => ha (.inr ?_)⟩
  · rw [hi, hwrap] at hin
    simp only [fsdesc, u64] at hin ⊢
    omega
  · rw [hi] at hin
    simp only [fsdesc, u64] at hin ⊢
    omega

-- ==== the request

/-- The request starts inside the blocks of the file and does not end
before the last of them. Block numbers are `uint32_t`. -/
def StartsInside (e : ByteMap) (size offset : Nat) : Prop :=
  (offset % 4096 ≠ 0 → u32 (offset / 4096) < sizeToBlock (u64 (offset + size)))
    ∧ (Entry.blockCount e = sizeToBlock (u64 (offset + size))
      ∨ (Entry.blockCount e < sizeToBlock (u64 (offset + size))
        ∧ sizeToBlock offset ≤ Entry.blockCount e))

/-- The blocks of the loop are blocks of the new range. -/
theorem StartsInside.written (h : StartsInside e size offset)
    (hk : k < newBlocks e size offset) :
    sizeToBlock offset + k < sizeToBlock (u64 (offset + size)) := by
  unfold newBlocks subU32 u32 at hk
  rcases h.2 with heq | ⟨hlt, hle⟩
  · omega
  · omega

/-- So are the blocks copied by a relocation. -/
theorem StartsInside.copied (h : StartsInside e size offset)
    (hpos : 0 < newBlocks e size offset) :
    u32 (offset / 4096) ≤ sizeToBlock (u64 (offset + size)) := by
  by_cases hp : offset % 4096 = 0
  · have hsize : sizeToBlock offset = u32 (offset / 4096) := by
      unfold sizeToBlock u64 u32
      omega
    have hle : sizeToBlock offset + 0 < sizeToBlock (u64 (offset + size)) := h.written hpos
    omega
  · exact Nat.le_of_lt (h.1 hp)

-- ==== the parts

/-- Up to the block loop only blocks of the range are written. -/
theorem Front.beyond
    (h : Front E ino size offset w w1 aba (newBlocks (entryAt w.disk ino) size offset) e')
    (hin : StartsInside (entryAt w.disk ino) size offset)
    (hroom : Entry.startBlock e' + sizeToBlock (u64 (offset + size)) ≤ 16) :
    ∀ a, Beyond (Entry.startBlock e') (sizeToBlock (u64 (offset + size))) a →
      w1.disk a = w.disk a := by
  refine h.keeps (Spares.discipline E _) (Spares.bufferFree _) fsrng_spares
    (fun ha k hk => ?_) fun hp => ?_
  · obtain ⟨j, hj, -⟩ := h.crowded.mp ha
    have hle := hin.copied (Nat.zero_lt_of_lt hj)
    have hindex : u32 (Entry.startBlock e' + k) = Entry.startBlock e' + k :=
      Nat.mod_eq_of_lt (by omega)
    exact blockIn_beyond hroom (by omega) (by omega)
  · have hlt := hin.1 hp
    have hindex : u32 (Entry.startBlock e' + offset / 4096)
        = Entry.startBlock e' + u32 (offset / 4096) := by
      generalize sizeToBlock (u64 (offset + size)) = total at hroom hlt
      unfold u32 at hlt ⊢
      omega
    exact blockIn_beyond hroom (by omega) (by omega)

-- ==== the frame

/-- A write through `ino` changed no more than it should: its entry, the
blocks the file has now, which are blocks of the volume, and usage bytes
of the volume. The other entries and the tree are as they were. -/
structure WriteFrame (ino : Nat) (disk disk' : ByteMap) : Prop where
  range : Entry.startBlock (entryAt disk' ino) + Entry.blockCount (entryAt disk' ino)
    ≤ fsdesc.blockCount
  frame : ∀ a, disk' a ≠ disk a → (entryAddr ino ≤ a ∧ a < entryAddr ino + 304)
    ∨ Within (Entry.startBlock (entryAt disk' ino)) (Entry.blockCount (entryAt disk' ino)) a
  entries : ∀ j < 16, j ≠ ino → entryAt disk' j = entryAt disk j
  tree : ∀ a, fsdesc.treeUsageOffset ≤ a → a < fsdesc.dataOffset → disk' a = disk a

/-- The last two say nothing new. -/
theorem WriteFrame.of_frame (hino : ino < 16)
    (range : Entry.startBlock (entryAt disk' ino) + Entry.blockCount (entryAt disk' ino)
      ≤ fsdesc.blockCount)
    (frame : ∀ a, ¬ (entryAddr ino ≤ a ∧ a < entryAddr ino + 304) →
      Beyond (Entry.startBlock (entryAt disk' ino)) (Entry.blockCount (entryAt disk' ino)) a →
      disk' a = disk a) : WriteFrame ino disk disk' where
  range := range
  frame a hne := by
    by_contra hout
    rw [not_or] at hout
    exact hne (frame a hout.1 hout.2)
  entries j hj hne := by
    refine entryAt_congr fun a h1 h2 => frame a ?_ ?_
    · unfold entryAddr at h1 h2 ⊢
      omega
    · unfold Beyond Within
      unfold entryAddr at h1 h2
      simp only [fsdesc]
      omega
  tree a h1 h2 := by
    refine frame a ?_ ?_
    · unfold entryAddr
      simp only [fsdesc] at h1
      omega
    · unfold Beyond Within
      simp only [fsdesc] at h1 h2 ⊢
      omega

/-- The entry a write leaves. -/
theorem entryAt_written (hpos : 1 ≤ ino)
    (h : ∀ a, 16 ≤ a → disk' a = copy disk (entryAddr ino) (Entry.setSize e m) 0 304 a) :
    Entry.startBlock (entryAt disk' ino) = Entry.startBlock e
      ∧ Entry.blockCount (entryAt disk' ino) = Entry.blockCount e := by
  have hsame : entryAt disk' ino
      = entryAt (copy disk (entryAddr ino) (Entry.setSize e m) 0 304) ino :=
    entryAt_congr fun a h1 _ => h a (by unfold entryAddr at h1; omega)
  have hsize : ∀ b, 16 ≤ b → load (Entry.setSize e m) b 4 = load e b 4 :=
    fun b hb => load_store_of_disjoint (by omega)
  unfold Entry.startBlock Entry.blockCount
  rw [hsame, load_entryAt_copy (by omega), load_entryAt_copy (by omega), hsize _ (by omega),
    hsize _ (by omega)]
  exact ⟨rfl, rfl⟩

/-- In every run, and on any disk: the frame of a successful write that
starts inside the blocks of the file and does not end before the last of
them holds exactly when the file is moved, or fits where it stands. -/
theorem write_frame_iff (hrun : FsRun E (fun _ => Typed) (start E) w) (hlive : Live w ino)
    {buf : ByteMap} {r : Int} (hin : StartsInside (entryAt w.disk ino) size offset)
    (hok : (FsOp.write ino buf size offset).exec E w = (.ok r, w')) :
    WriteFrame ino w.disk w'.disk
      ↔ Crowded w.disk (entryAt w.disk ino) (newBlocks (entryAt w.disk ino) size offset)
        ∨ Entry.startBlock (entryAt w.disk ino) + sizeToBlock (u64 (offset + size))
          ≤ fsdesc.blockCount := by
  have hhead := fsRun_head hrun
  have hhead' : Head w'.disk := by
    have htyped : Typed (.write ino buf size offset) := Nat.lt_trans hlive.1 (by decide)
    have hexec := FsOp.exec_head (E := E) htyped hhead
    rw [hok] at hexec
    exact hexec
  have hpos := hhead.pos hlive
  have hok := bind_step hok rfl
  obtain ⟨n, w₃, hwrite, hret⟩ := bind_ok.mp hok
  cases hret
  have h32 : ino < 2 ^ 32 := Nat.lt_trans hlive.1 (by decide)
  obtain ⟨aba, e₁, ctx, w₁, e₂, w₂, hf, hrest, hend⟩ := fsWrite_parts h32 hwrite
  obtain ⟨-, hstart₂, hcount₂⟩ := hf.rest hrest
  have hdisk : ∀ a, 16 ≤ a → w'.disk a
      = copy w₂.disk (entryAddr ino) (Entry.setSize e₂ (u64 (offset + size))) 0 304 a := by
    intro a ha
    rcases (writeEnd_ok h32 hend).2.2 a with h | ⟨-, h0, hlt⟩
    · exact h
    · have hroom := (hf.moved h0).1
      have hle := hin.2
      rw [newBlocks_back, hstart₂] at hlt
      dsimp only at hlt
      have := hlt (by omega)
      omega
  obtain ⟨hstart, hblocks⟩ := entryAt_written hpos hdisk
  rw [hstart₂] at hstart
  rw [hcount₂] at hblocks
  refine ⟨fun hframe => ?_, fun hfits => ?_⟩
  · by_cases h0 : aba = some 0
    · exact .inl (hf.crowded.mp h0)
    · have hrange := hframe.range
      rw [hstart, hblocks, (hf.stay h0).1] at hrange
      exact .inr hrange
  · have hroom : Entry.startBlock e₁ + sizeToBlock (u64 (offset + size)) ≤ 16 := by
      by_cases h0 : aba = some 0
      · exact (hf.moved h0).1
      · rw [(hf.stay h0).1]
        exact hfits.resolve_left fun hc => h0 (hf.crowded.mpr hc)
    refine WriteFrame.of_frame hlive.1 ?_ fun a hout hbey => ?_
    · rw [hstart, hblocks]
      exact hroom
    · rw [hstart, hblocks] at hbey
      -- the byte map of `set_availability` is zero before and after
      by_cases ha : a < 16
      · rw [hhead' a ha, hhead a ha]
      · have hblock : ∀ k < newBlocks (entryAt w.disk ino) size offset, BlockIn fsdesc
            (Outside (Beyond (Entry.startBlock e₁) (sizeToBlock (u64 (offset + size)))))
            (Entry.startBlock e₁ + sizeToBlock offset + k) := by
          intro k hk
          have hlt := hin.written hk
          have hindex : u32 (Entry.startBlock e₁ + sizeToBlock offset + k)
              = Entry.startBlock e₁ + sizeToBlock offset + k := Nat.mod_eq_of_lt (by omega)
          exact blockIn_beyond hroom (by omega) (by omega)
        have hrest' := ((Spares.walk E _).writeRest (Spares.buffered E _) (Spares.ignores E _) _ _ _
          hblock).of_run hrest a hbey
        rw [hdisk a (by omega), copy_of_not_mem hout, hrest']
        exact hf.beyond hin hroom a hbey

/-- A third block behind two. -/
theorem write_frame_third :
    WriteFrame 1 twoBlocks.disk
      ((FsOp.write 1 zero 4096 8192).exec plainEnv twoBlocks).2.disk := by
  have hrun : FsRun plainEnv (fun _ => Typed) (start plainEnv) twoBlocks :=
    runAll_run plainEnv _ _ ⟨trivial, by decide +kernel, (by decide : 1 < 2 ^ 32),
      by decide +kernel, trivial⟩
  have hlive : Live twoBlocks 1 := ⟨by decide, by decide +kernel⟩
  have hok : ((FsOp.write 1 zero 4096 8192).exec plainEnv twoBlocks).1.toOption = some 4096 := by
    decide +kernel
  refine (write_frame_iff hrun hlive ?_ (eq_of_toOption hok)).mpr (.inr (by decide +kernel))
  exact ⟨fun h => absurd rfl h, .inr ⟨by decide +kernel, by decide +kernel⟩⟩

/-- Seventeen blocks are put where the file stands, and the usage byte of
the last is the first byte of the tree's usage map. -/
theorem write_marks_tree :
    FsRun plainEnv (fun _ => Typed) (start plainEnv)
        (runAll plainEnv (start plainEnv) [.allocInode])
      ∧ Live (runAll plainEnv (start plainEnv) [.allocInode]) 1
      ∧ ((FsOp.write 1 zero 69632 0).exec plainEnv
          (runAll plainEnv (start plainEnv) [.allocInode])).1.toOption = some 69632
      ∧ (runAll plainEnv (start plainEnv) [.allocInode]).disk fsdesc.treeUsageOffset = 0
      ∧ ((FsOp.write 1 zero 69632 0).exec plainEnv
          (runAll plainEnv (start plainEnv) [.allocInode])).2.disk fsdesc.treeUsageOffset = 1 := by
  refine ⟨?_, ⟨by decide, by decide +kernel⟩, by decide +kernel, by decide +kernel,
    by decide +kernel⟩
  exact runAll_run plainEnv _ _ ⟨trivial, by decide +kernel, trivial⟩

end RojocOS.Fs
