/-
Reading back what was written.

# The defect

`fs_write` counts blocks, not bytes. A request that ends inside blocks
the file already has and starts on a block boundary encrypts nothing at
all (`aligned_overwrite_is_lost`); one that crosses a block boundary
encrypts its later blocks with a counter that runs on, where `fs_read`
starts afresh at `cipher_iv + k`; the partial first block does not
advance `buf`; and `entry.size` becomes `offset + size` even when the
file was longer.

# What does hold

One block at a time it works (`OneBlock`): either the request appends at
a block boundary, at most one block long and to a block the allocator
reports free, or it starts inside the file's last block, ends inside it
and reaches at least to the end of the file. In both cases exactly one
data block is rewritten, under the IV `fs_read` uses for it, with the
old bytes before `offset` and those of `buf` from there on (`newBlock`).
-/
import RojocOS.Fs.Proofs.Read

namespace RojocOS.Fs

open ByteMap Prog

variable {E : FsEnv} {ctx : AesCtx} {i k' n : Nat} {w : FsWorld}
variable {index offset x : Nat} {buf disk e e' : ByteMap}
variable {disk' : ByteMap}

-- ==== one block

/-- Counter mode undoes itself. -/
theorem xcrypt_xcrypt (ctx : AesCtx) (buf : ByteMap) (hx : x < 4096) :
    (aesCtrXcryptBuffer E ctx
      (slice (aesCtrXcryptBuffer E ctx buf 0 4096).2 0 4096) 0 4096).2 x
      = buf x := by
  have hin : 0 ≤ x ∧ x < 0 + 4096 := by omega
  show (if 0 ≤ x ∧ x < 0 + 4096 then _ else _) = _
  rw [if_pos hin, slice_of_lt hx]
  show (if 0 ≤ 0 + x ∧ 0 + x < 0 + 4096 then _ else _) ^^^ _ = _
  rw [if_pos (by omega), Nat.zero_add, UInt8.xor_assoc, UInt8.xor_self, UInt8.xor_zero]

/-- The disk after `encrypt_block`: the block and its usage byte. -/
def putBlock (E : FsEnv) (disk : ByteMap) (index : Nat) (ctx : AesCtx)
    (buffer : ByteMap) : ByteMap :=
  copy (copy disk (88988 + index * 4096)
    (aesCtrXcryptBuffer E ctx buffer 0 4096).2 0 4096) (4876 + index) ONE 0 1

/-- The usage byte of a block below `84112` lies before the data area. -/
theorem encryptBlock_eq (hE : E.Reliable)
    (h : index < 84112) (ctx : AesCtx) (buffer : ByteMap) (w : FsWorld) :
    encryptBlock E fsdesc index ctx buffer w
      = (.ok (), { w with
          disk := putBlock E w.disk index ctx buffer, io := w.io + 2 }) := by
  have husage : u64 (fsdesc.blockUsageOffset + u32 index) = 4876 + index := by
    simp only [fsdesc, u64, u32]
    omega
  unfold encryptBlock
  rw [bind_of_ok (fsdw_reliable hE _ _ _ _), fsdw_reliable hE,
    dataAddr (by omega), husage]
  rfl

/-- The entries `e` and `e'` describe the same blocks, under the same
key and IV. -/
structure SameBlocks (e e' : ByteMap) : Prop where
  start : Entry.startBlock e' = Entry.startBlock e
  key : Entry.cipherKey e' = Entry.cipherKey e
  iv : Entry.cipherIv e' = Entry.cipherIv e

/-- Bytes 16 to 19 and from 24 on decide which blocks an entry means. -/
theorem SameBlocks.of_bytes
    (h : ∀ x, (16 ≤ x ∧ x < 20) ∨ (24 ≤ x ∧ x < 304) → e' x = e x) : SameBlocks e e' := by
  refine ⟨?_, ?_, ?_⟩
  · exact load_congr fun x h1 h2 => h x (by omega)
  · exact slice_congr fun x h1 h2 => h x (by omega)
  · exact load_congr fun x h1 h2 => h x (by omega)

section Rewritten

variable {buffer : ByteMap} {k : Nat}

/-- The block just written decrypts to what was encrypted. -/
theorem plainBlock_put (hk : Entry.startBlock e + k < 84112) (hsame : SameBlocks e e')
    (hdisk : ∀ a, 88988 ≤ a → disk' a
      = putBlock E disk (Entry.startBlock e + k) (aesInitCtxIv E
          (Entry.cipherKey e) ((Entry.cipherIv e + k) % 2 ^ 128)) buffer a)
    (hx : x < 4096) : plainBlock E disk' e' k x = buffer x := by
  have hslice : slice disk' (88988 + (Entry.startBlock e + k) * 4096) 4096
      = slice (aesCtrXcryptBuffer E (aesInitCtxIv E (Entry.cipherKey e)
          ((Entry.cipherIv e + k) % 2 ^ 128)) buffer 0 4096).2 0 4096 := by
    funext i
    by_cases hi : i < 4096
    · rw [slice_of_lt hi, slice_of_lt hi, hdisk _ (by omega)]
      unfold putBlock
      rw [copy_of_not_mem (by omega), copy_of_mem (by omega), Nat.add_sub_cancel_left]
    · unfold slice
      rw [if_neg hi, if_neg hi]
  unfold plainBlock
  rw [hsame.start, hsame.key, hsame.iv, hslice]
  exact xcrypt_xcrypt _ _ hx

/-- The other blocks of the file stay. -/
theorem plainBlock_put_other
    (hk : Entry.startBlock e + k < 84112) (hsame : SameBlocks e e')
    (hdisk : ∀ a, 88988 ≤ a →
      disk' a = putBlock E disk (Entry.startBlock e + k) ctx buffer a)
    (hne : k' ≠ k) :
    plainBlock E disk' e' k' = plainBlock E disk e k' := by
  have hslice : slice disk' (88988 + (Entry.startBlock e + k') * 4096) 4096
      = slice disk (88988 + (Entry.startBlock e + k') * 4096) 4096 := by
    refine slice_congr fun a h1 h2 => ?_
    rw [hdisk a (by omega)]
    unfold putBlock
    rw [copy_of_not_mem (by omega), copy_of_not_mem (by omega)]
  unfold plainBlock
  rw [hsame.start, hsame.key, hsame.iv, hslice]

end Rewritten

-- ==== one write

/-- The requests that touch one block only. -/
def OneBlock (disk : ByteMap) (ino size offset : Nat) : Prop :=
  Entry.startBlock (entryAt disk ino) + offset / 4096 < 84112
    ∧ ((offset % 4096 = 0
        ∧ Entry.size (entryAt disk ino) = offset
        ∧ Entry.blockCount (entryAt disk ino) = offset / 4096
        ∧ size ≤ 4096
        ∧ disk (Entry.startBlock (entryAt disk ino) + offset / 4096) = 0)
      ∨ (offset % 4096 ≠ 0
        ∧ Entry.blockCount (entryAt disk ino) = offset / 4096 + 1
        ∧ offset + size ≤ 4096 * (offset / 4096 + 1)
        ∧ Entry.size (entryAt disk ino) ≤ offset + size))

/-- The block it encrypts: old bytes up to `offset`, then `buf`. -/
def newBlock (E : FsEnv) (disk e buf : ByteMap) (offset : Nat) : ByteMap :=
  if offset % 4096 = 0 then slice buf 0 4096
  else copy (plainBlock E disk e (offset / 4096)) (offset % 4096) buf 0
    (4096 - offset % 4096)

theorem newBlock_old (h : x < offset % 4096) :
    newBlock E disk e buf offset x
      = plainBlock E disk e (offset / 4096) x := by
  unfold newBlock
  rw [if_neg (by omega), copy_of_not_mem (by omega)]

theorem newBlock_new (h : offset % 4096 ≤ x) (hx : x < 4096) :
    newBlock E disk e buf offset x = buf (x - offset % 4096) := by
  unfold newBlock
  by_cases h0 : offset % 4096 = 0
  · rw [if_pos h0, slice_of_lt hx, h0, Nat.zero_add, Nat.sub_zero]
  · rw [if_neg h0, copy_of_mem (by omega), Nat.zero_add]

/-- The context block `k` of the file with entry `e` is encrypted
under. -/
def blockCtx (E : FsEnv) (e : ByteMap) (k : Nat) : AesCtx :=
  aesInitCtxIv E (Entry.cipherKey e) ((Entry.cipherIv e + k) % 2 ^ 128)

/-- The effect of such a request: the block, and an entry with the new
size. -/
def WritesOne (E : FsEnv) (w : FsWorld) (ino size offset : Nat) : Prop :=
  ∃ e' io buf' t, fsWrite E fsdesc ino size offset w
      = (.ok size, { w with
          disk := copy (putBlock E w.disk
            (Entry.startBlock (entryAt w.disk ino) + offset / 4096)
            (blockCtx E (entryAt w.disk ino) (offset / 4096))
            (newBlock E w.disk (entryAt w.disk ino) w.buf offset))
            (entryAddr ino) e' 0 304
          io := io, buf := buf', trace := t })
    ∧ SameBlocks (entryAt w.disk ino) e' ∧ Entry.size e' = offset + size

/-- The entry a write leaves behind, and its size. -/
theorem setSize_sameBlocks (hn : n < 2 ^ 64)
    (h : ∀ x, (16 ≤ x ∧ x < 20) ∨ (24 ≤ x ∧ x < 304) → e' x = e x) :
    SameBlocks e (Entry.setSize e' n)
      ∧ Entry.size (Entry.setSize e' n) = n := by
  refine ⟨SameBlocks.of_bytes fun x hx => ?_, ?_⟩
  · unfold Entry.setSize
    rw [store_of_not_mem (by omega)]
    exact h x hx
  · unfold Entry.size Entry.setSize
    rw [load_store_of_lt (by omega)]

/-- The probe for one block, when the allocator reports it free. -/
theorem probeGrowth_one (hE : E.Reliable)
    (h : Entry.startBlock e + Entry.blockCount e < 2 ^ 31)
    (hfree : w.disk (Entry.startBlock e + Entry.blockCount e) = 0) :
    probeGrowth E fsdesc e 1 w
      = (.ok (some 1), { w with io := w.io + 1 }) := by
  have haddr : u64 (fsdesc.availBlockTableOffset
      + sext (Entry.startBlock e + Entry.blockCount e) + 0)
      = Entry.startBlock e + Entry.blockCount e := by
    have h32 : u32 (Entry.startBlock e + Entry.blockCount e)
        = Entry.startBlock e + Entry.blockCount e :=
      Nat.mod_eq_of_lt (by omega)
    unfold sext
    rw [h32, if_pos h]
    simp only [fsdesc, u64]
    omega
  have havail : areBlocksAvaiblable E fsdesc (Entry.startBlock e + Entry.blockCount e) 1 w
      = (.ok 1, { w with io := w.io + 1 }) := by
    unfold areBlocksAvaiblable blocksAvailFrom
    rw [bind_of_ok (fsdr_reliable hE _ _ _), haddr,
      slice_of_lt (by omega), Nat.add_zero, if_neg (fun h => h hfree)]
    rfl
  unfold probeGrowth
  rw [if_pos (by omega)]
  exact (bind_of_ok havail).trans rfl

/-- The block loop for one block. -/
theorem writeLoop_one (hE : E.Reliable) (h : index < 84112) (ctx : AesCtx) (w : FsWorld) :
    ∃ buf' t, writeLoop E fsdesc index 1 0 ctx w
      = (.ok (), { w with
          disk := putBlock E w.disk index ctx (slice w.buf 0 4096)
          io := w.io + 2, buf := buf', trace := t }) := by
  have hcall : encryptCaller E fsdesc (index + 0) ctx (0 * 4096) w
      = (.ok (), { w with
          disk := putBlock E w.disk index ctx (slice w.buf 0 4096)
          io := w.io + 2
          buf := (aesCtrXcryptBuffer E ctx w.buf (0 * 4096) 4096).2
          trace := ⟨true, 0 * 4096, 4096⟩ :: ⟨false, 0 * 4096, 4096⟩ :: w.trace }) := by
    unfold encryptCaller
    rw [get_bind, bind_of_ok (x := Prog.modify _) rfl]
    unfold Prog.ignoreErr
    rw [Nat.add_zero, encryptBlock_eq hE h, Nat.zero_mul]
  exact ⟨_, _, (bind_of_ok hcall).trans rfl⟩

theorem writePartial_one (hE : E.Reliable) (h0 : offset % 4096 ≠ 0)
    (h : Entry.startBlock e + offset / 4096 < 84112)
    (ctx : AesCtx) (block : ByteMap) (w : FsWorld) :
    writePartial E fsdesc e ctx block offset w
      = (.ok (nextCtx E ctx), { w with
          disk := putBlock E w.disk (Entry.startBlock e + offset / 4096) ctx block
          io := w.io + 2 }) := by
  unfold writePartial
  rw [if_pos h0, bind_of_ok (encryptBlock_eq hE h _ _ _)]
  rfl

section Write

variable {w : FsWorld} {ino size : Nat}

section

variable (hE : E.Reliable) (hino : ino < 2 ^ 32) (h1 : 1 ≤ size)

include hE hino h1

/-- Appending at most one block at a block boundary. -/
theorem fsWrite_append (hle : size ≤ 4096)
    (hidx : Entry.startBlock (entryAt w.disk ino) + offset / 4096 < 84112)
    (h0 : offset % 4096 = 0) (hsz : Entry.size (entryAt w.disk ino) = offset)
    (hcnt : Entry.blockCount (entryAt w.disk ino) = offset / 4096)
    (hfree : w.disk (Entry.startBlock (entryAt w.disk ino) + offset / 4096) = 0) :
    WritesOne E w ino size offset := by
  have htotal : sizeToBlock (u64 (offset + size)) = offset / 4096 + 1 := by
    unfold sizeToBlock u64 u32
    omega
  have hu : u64 (offset + size) = offset + size := by
    unfold u64
    omega
  have hnew : subU32 (offset / 4096 + 1) (Entry.blockCount (entryAt w.disk ino)) = 1 := by
    unfold subU32 u32
    omega
  have hblk : sizeToBlock offset = offset / 4096 := by
    unfold sizeToBlock u64 u32
    omega
  have hprobe := probeGrowth_one hE (e := entryAt w.disk ino)
    (w := { w with io := w.io + 1 }) (by omega) (by rw [hcnt]; exact hfree)
  -- no partial block, no relocation
  have hmerge : mergePartial E fsdesc (entryAt w.disk ino) offset
      = pure ByteMap.zero := if_neg (fun h => h h0)
  have hreloc : relocate E fsdesc (some 1) (entryAt w.disk ino)
      (offset / 4096 + 1) offset = pure (entryAt w.disk ino) :=
    if_neg (by decide)
  have hpart : ∀ ctx b, writePartial E fsdesc (entryAt w.disk ino) ctx b
      offset = pure ctx := fun ctx b => if_neg (fun h => h h0)
  obtain ⟨buf', t, hrest⟩ := writeLoop_one hE hidx
    (blockCtx E (entryAt w.disk ino) (offset / 4096)) { w with io := w.io + 1 + 1 }
  have hblock : newBlock E w.disk (entryAt w.disk ino) w.buf offset
      = slice w.buf 0 4096 := if_pos h0
  unfold blockCtx at hrest
  unfold WritesOne fsWrite
  rw [if_neg (by unfold FS_IO_MAX_SIZE; omega),
    bind_of_ok (fsdr_entry hE hino w), if_neg (by omega)]
  rw [htotal, hu, hnew, bind_of_ok hprobe, hmerge, Prog.pure_bind,
    hreloc, Prog.pure_bind, hpart, Prog.pure_bind, writeRest, if_pos (by omega), hblk,
    Prog.bind_assoc, bind_of_ok hrest, Prog.pure_bind, bind_of_ok (fsdw_entry hE hino _ _),
    hblock]
  refine ⟨_, _, _, _, rfl, setSize_sameBlocks (by omega) fun x hx => ?_⟩
  exact store_of_not_mem (by omega)

/-- Rewriting the end of the file's last block. -/
theorem fsWrite_patch (hoff : offset ≤ Entry.size (entryAt w.disk ino))
    (hidx : Entry.startBlock (entryAt w.disk ino) + offset / 4096 < 84112)
    (h0 : offset % 4096 ≠ 0)
    (hcnt : Entry.blockCount (entryAt w.disk ino) = offset / 4096 + 1)
    (hle : offset + size ≤ 4096 * (offset / 4096 + 1)) :
    WritesOne E w ino size offset := by
  have htotal : sizeToBlock (u64 (offset + size)) = offset / 4096 + 1 := by
    unfold sizeToBlock u64 u32
    omega
  have hu : u64 (offset + size) = offset + size := by
    unfold u64
    omega
  have hnew : subU32 (offset / 4096 + 1) (Entry.blockCount (entryAt w.disk ino)) = 0 := by
    unfold subU32 u32
    omega
  obtain ⟨ctx', hdec⟩ := decryptBlock_plain hE (e := entryAt w.disk ino)
    (k := offset / 4096) (by omega) { w with io := w.io + 1 }
  have hmerge : mergePartial E fsdesc (entryAt w.disk ino) offset
      { w with io := w.io + 1 }
      = (.ok (newBlock E w.disk (entryAt w.disk ino) w.buf offset), { w with
            io := w.io + 1 + 1
            trace := ⟨false, 0, 4096 - offset % 4096⟩ :: w.trace }) := by
    unfold mergePartial newBlock
    rw [if_pos h0, if_neg h0, bind_of_ok hdec]
    rfl
  -- no new block: no probe, no relocation, no block loop
  have hprobe : probeGrowth E fsdesc (entryAt w.disk ino) 0
      = pure none := if_neg (by omega)
  have hreloc : relocate E fsdesc none (entryAt w.disk ino)
      (offset / 4096 + 1) offset = pure (entryAt w.disk ino) :=
    if_neg (by decide)
  have hrest : ∀ ctx, writeRest E fsdesc (entryAt w.disk ino) ctx offset
      (offset / 4096 + 1) 0 = pure (entryAt w.disk ino) :=
    fun ctx => if_neg (fun h => h rfl)
  have hpart := writePartial_one hE h0 hidx
    (blockCtx E (entryAt w.disk ino) (offset / 4096))
    (newBlock E w.disk (entryAt w.disk ino) w.buf offset) { w with
      io := w.io + 1 + 1
      trace := ⟨false, 0, 4096 - offset % 4096⟩ :: w.trace }
  unfold blockCtx at hpart
  unfold WritesOne fsWrite
  rw [if_neg (by unfold FS_IO_MAX_SIZE; omega),
    bind_of_ok (fsdr_entry hE hino w), if_neg (by omega)]
  rw [htotal, hu, hnew, hprobe, Prog.pure_bind, bind_of_ok hmerge,
    hreloc, Prog.pure_bind, bind_of_ok hpart, hrest, Prog.pure_bind,
    bind_of_ok (fsdw_entry hE hino _ _)]
  exact ⟨_, _, _, _, rfl, setSize_sameBlocks (by omega) fun _ _ => rfl⟩

theorem fsWrite_oneBlock (hoff : offset ≤ Entry.size (entryAt w.disk ino))
    (hc : OneBlock w.disk ino size offset) : WritesOne E w ino size offset := by
  obtain ⟨hidx, ⟨h0, hsz, hcnt, hle, hfree⟩ | ⟨h0, hcnt, hle, _⟩⟩ := hc
  · exact fsWrite_append hE hino h1 hle hidx h0 hsz hcnt hfree
  · exact fsWrite_patch hE hino h1 hoff hidx h0 hcnt hle

end

end Write

-- ==== the theorem

/-- The entry found on disk after entry `i` was written. -/
theorem sameBlocks_entryAt (h : SameBlocks e e') :
    SameBlocks e (entryAt (copy disk (entryAddr i) e' 0 304) i) := by
  have hb : ∀ x < 304, entryAt (copy disk (entryAddr i) e' 0 304) i x = e' x := by
    intro x hx
    unfold entryAt
    rw [slice_of_lt hx, copy_of_mem (by omega), Nat.zero_add, Nat.add_sub_cancel_left]
  have h' : SameBlocks e' (entryAt (copy disk (entryAddr i) e' 0 304) i) :=
    SameBlocks.of_bytes fun x hx => hb x (by omega)
  exact ⟨h'.start.trans h.start, h'.key.trans h.key, h'.iv.trans h.iv⟩

section After

variable {a : Nat}

end After

/-- A write that touches one block returns its size; reading it back
gives the bytes of the buffer, and every part of the old file outside
the request reads as before. -/
theorem write_reads_back (hE : E.Reliable) (w : FsWorld)
    (ino : Nat) (buf : ByteMap) (size offset : Nat) (hlive : Live w ino)
    (h1 : 1 ≤ size) (hoff : offset ≤ Entry.size (entryAt w.disk ino))
    (hc : OneBlock w.disk ino size offset) :
    ∃ w', (FsOp.write ino buf size offset).exec E w = (.ok size, w')
      ∧ (∀ fuel, 2 ≤ fuel → readResult E w'.disk fuel ino size offset
          = .ok ((List.range size).map buf))
      ∧ ∀ sz off fuel, 1 ≤ sz → off + sz ≤ Entry.size (entryAt w.disk ino) →
          (off + sz ≤ offset ∨ offset + size ≤ off) →
          (off + sz - 1) / 4096 - off / 4096 + 2 ≤ fuel →
          ∃ bytes, bytes.length = sz
            ∧ readResult E w.disk fuel ino sz off = .ok bytes
            ∧ readResult E w'.disk fuel ino sz off = .ok bytes := by
  have hino : ino < 2 ^ 32 := Nat.lt_trans hlive.1 (by omega)
  obtain ⟨e', io, buf', t, hw, hsame', hsize⟩ := fsWrite_oneBlock hE
    (w := { w with buf := buf }) hino h1 hoff hc
  obtain ⟨hidx, hcase⟩ := hc
  have hblock : offset + size ≤ 4096 * (offset / 4096 + 1)
      ∧ Entry.size (entryAt w.disk ino) ≤ offset + size := by omega
  refine ⟨_, bind_ok.mpr ⟨(), _, rfl, bind_ok.mpr ⟨size, _, hw, rfl⟩⟩, ?_⟩
  dsimp only
  generalize hput : putBlock E w.disk _ _ _ = put
  generalize hdisk : copy put (entryAddr ino) e' 0 304 = disk'
  -- the new disk: the data area, and the entry
  have hdata : ∀ a, 88988 ≤ a → disk' a = put a := by
    intro a ha
    rw [← hdisk]
    refine copy_of_not_mem fun h => ?_
    have := hlive.1
    unfold entryAddr at h
    omega
  rw [← hput] at hdata
  have hsame : SameBlocks (entryAt w.disk ino) (entryAt disk' ino) := by
    rw [← hdisk]
    exact sameBlocks_entryAt hsame'
  have hsz : Entry.size (entryAt disk' ino) = offset + size := by
    rw [← hdisk, ← hsize]
    exact load_entryAt_copy (by omega)
  have hold : ∀ a < offset,
      plain E disk' (entryAt disk' ino) a = plain E w.disk (entryAt w.disk ino) a := by
    intro a ha
    unfold plain
    by_cases hk : a / 4096 = offset / 4096
    · rw [hk, plainBlock_put hidx hsame hdata (Nat.mod_lt _ (by omega)),
        newBlock_old (by omega)]
    · rw [plainBlock_put_other hidx hsame hdata hk]
  refine ⟨fun fuel hfuel => ?_, fun sz off fuel hs hin hout hfuel => ?_⟩
  · rw [readResult_plain hE (n := size) hino (by rw [hsame.start]; omega) h1
      (by unfold FS_IO_MAX_SIZE; omega) (by omega) (by omega) (by omega)]
    refine congrArg Except.ok (List.map_congr_left fun i hi => ?_)
    rw [List.mem_range] at hi
    unfold plain
    rw [show (offset + i) / 4096 = offset / 4096 by omega,
      plainBlock_put hidx hsame hdata (Nat.mod_lt _ (by omega)),
      newBlock_new (by omega) (Nat.mod_lt _ (by omega))]
    congr 1
    omega
  · refine ⟨_, ?_, readResult_plain hE (n := sz) hino (by omega) hs
      (by unfold FS_IO_MAX_SIZE; omega) (by omega) (by omega) hfuel, ?_⟩
    · rw [List.length_map, List.length_range]
    · rw [readResult_plain hE (n := sz) hino (by rw [hsame.start]; omega) hs
        (by unfold FS_IO_MAX_SIZE; omega) (by omega) (by omega) hfuel]
      refine congrArg Except.ok (List.map_congr_left fun i hi => ?_)
      rw [List.mem_range] at hi
      exact hold _ (by omega)

/-- One byte written to a fresh file. -/
def firstByte : FsWorld :=
  runAll plainEnv (start plainEnv) [.allocInode, .write 1 (fun _ => 65) 1 0]

/-- A second byte after the first. -/
theorem write_reads_back_firstByte :
    ∃ w', (FsOp.write 1 (fun _ => 66) 1 1).exec plainEnv firstByte
        = (.ok 1, w')
      ∧ readResult plainEnv w'.disk 2 1 1 1 = .ok [66] := by
  obtain ⟨w', hw, hread, _⟩ := write_reads_back plainEnv_reliable
    firstByte 1 (fun _ => 66) 1 1 ⟨by omega, by decide +kernel⟩ (by omega)
    (by decide +kernel)
    ⟨by decide +kernel, .inr ⟨by omega, by decide +kernel, by omega, by decide +kernel⟩⟩
  exact ⟨w', hw, hread 2 (by omega)⟩

/-- Overwriting that byte in place returns 1 and changes nothing: the
request needs no new block, so no block is encrypted. -/
theorem aligned_overwrite_is_lost :
    FsRun plainEnv (fun _ _ => True) (start plainEnv) firstByte
      ∧ Live firstByte 1
      ∧ Entry.size (entryAt firstByte.disk 1) = 1
      ∧ (((FsOp.write 1 (fun _ => 66) 1 0).exec plainEnv firstByte).1).toOption
          = some 1
      ∧ (readResult plainEnv ((FsOp.write 1 (fun _ => 66) 1 0).exec plainEnv
          firstByte).2.disk 2 1 1 0).toOption = some [65] := by
  refine ⟨?_, ⟨by omega, by decide +kernel⟩, by decide +kernel,
    by decide +kernel, by decide +kernel⟩
  exact runAll_run plainEnv _ _
    ⟨trivial, by decide +kernel, trivial, by decide +kernel, trivial⟩

end RojocOS.Fs
