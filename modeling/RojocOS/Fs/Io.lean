/-
`fs_read` and `fs_write`.

# Loops

The block loop of `fs_read` counts in `uint32_t` up to and including
`end_block`; when `end_block` is `2^32 - 1` its test never fails. The
loop therefore takes fuel and stops with `hang` when it runs out: a run
of the code is a run with enough fuel.

`fs_write` loops over a `uint32_t` count, which is structural.

# The caller's buffer

`fs_read` copies into `buf`; the bytes copied so far stay there when a
later block fails. `fs_write` hands `buf` itself to `encrypt_block`, one
block at a time, so each of those 4096 bytes is replaced by its
ciphertext.
-/
import RojocOS.Fs.Disk

namespace RojocOS.Fs

open ByteMap

variable (E : FsEnv) (d : FsDescriptor)

/-- `FS_IO_MAX_SIZE`, that is `INT64_MAX`. -/
def FS_IO_MAX_SIZE : Nat := 0x7FFFFFFFFFFFFFFF

-- ==== fs_read

/-- `memcpy(dst + at, src + from, n)` into the caller's buffer. -/
def copyToCaller (at_ : Nat) (src : ByteMap) (from_ n : Nat) : FsM Unit :=
  Prog.modify fun w => { w with
    buf := copy w.buf at_ src from_ n
    trace := ⟨true, at_, n⟩ :: w.trace }

/-- The block loop of `fs_read`, for the entry `e`, the clipped `size`
and the request's `offset`; `idx` is `block_idx`, `done` is
`bytes_read`. -/
def readLoop (e : ByteMap) (size offset : Nat) :
    Nat → Nat → Nat → FsM Nat
  | 0, _, _ => Prog.stop .hang
  | fuel + 1, idx, done =>
      if idx ≤ u32 (u64 (offset + size + (2 ^ 64 - 1)) / 4096) then do
        let iv := (Entry.cipherIv e + idx) % 2 ^ 128
        let ctx := aesInitCtxIv E (Entry.cipherKey e) iv
        let (_, blockBuf) ← decryptBlock E d (Entry.startBlock e + idx) ctx
        let blockOffset :=
          if idx = u32 (offset / 4096) then offset % 4096 else 0
        let bytesToCopy := min (4096 - blockOffset) (u64 (size + 2 ^ 64 - done))
        copyToCaller done blockBuf blockOffset bytesToCopy
        readLoop e size offset fuel (u32 (idx + 1)) (done + bytesToCopy)
      else pure done

/-- `fs_read(fsdesc, ino, buf, size, offset)`. -/
def fsRead (fuel ino size offset : Nat) : FsM Nat :=
  if FS_IO_MAX_SIZE < size then Prog.stop (.err (-einval))
  else do
    let e ← fsdr E (entryAddr ino) 304
    if Entry.size e ≤ offset then pure 0
    else
      let size :=
        if Entry.size e < u64 (size + offset) then Entry.size e - offset
        else size
      readLoop E d e size offset fuel (u32 (offset / 4096)) 0

-- ==== fs_write

/-- `encrypt_block(fsdesc, index, &ctx, buf)` on the caller's buffer at
`off`: the buffer is encrypted in place, then written out. -/
def encryptCaller (index : Nat) (ctx : AesCtx) (off : Nat) : FsM Unit := do
  let w ← Prog.get
  let plain := slice w.buf off 4096
  Prog.modify fun w =>
    { w with
      buf := (aesCtrXcryptBuffer E ctx w.buf off 4096).2
      trace := ⟨true, off, 4096⟩ :: ⟨false, off, 4096⟩ :: w.trace }
  (encryptBlock E d index ctx plain).ignoreErr

/-- The full-block loop of `fs_write`: one context runs through all the
blocks and `buf` advances with it. -/
def writeLoop (finalBlocksIndex : Nat) : Nat → Nat → AesCtx → FsM Unit
  | 0, _, _ => pure ()
  | n + 1, i, ctx => do
      encryptCaller E d (finalBlocksIndex + i) ctx (i * 4096)
      writeLoop finalBlocksIndex n (i + 1) (nextCtx E ctx)

/-- The last loop of `fs_write`. -/
def clearAvailability (startBlock : Nat) : Nat → Nat → FsM Unit
  | 0, _ => pure ()
  | n + 1, i => do
      setAvailability E d (startBlock + i) ZERO
      clearAvailability startBlock n (i + 1)

/-- The search for room after the file; `aba` is `-1` (here `none`) when
no new block is needed. -/
def probeGrowth (e : ByteMap) (newBlock : Nat) : FsM (Option Nat) :=
  if 0 < newBlock then
    some <$> areBlocksAvaiblable E d
      (Entry.startBlock e + Entry.blockCount e) newBlock
  else pure none

/-- The first block of an unaligned write: the old block decrypted, with
`buf` laid over it from `offset % BLOCK_SIZE` to the end of the block. -/
def mergePartial (e : ByteMap) (offset : Nat) : FsM ByteMap :=
  if offset % 4096 ≠ 0 then do
    let iv := (Entry.cipherIv e + offset / 4096) % 2 ^ 128
    let ctx := aesInitCtxIv E (Entry.cipherKey e) iv
    let (_, block) ← decryptBlock E d (Entry.startBlock e + offset / 4096) ctx
    let w ← Prog.get
    Prog.modify fun w =>
      { w with trace := ⟨false, 0, 4096 - offset % 4096⟩ :: w.trace }
    pure (copy block (offset % 4096) w.buf 0 (4096 - offset % 4096))
  else pure zero

/-- The relocation branch of `fs_write`: a fresh range, a fresh key and
IV, and the blocks before `offset` copied over. The result of
`copy_block` is not looked at. -/
def relocate (aba : Option Nat) (e : ByteMap) (totalBlock offset : Nat) :
    FsM ByteMap :=
  if aba = some 0 then do
    let newStartBlock ← searchFreeBlocks E d totalBlock
    let dstKey ← fsrng E 256
    let dstIvBytes ← fsrng E 16
    let dstIv := load dstIvBytes 0 16
    (copyBlock E d (Entry.startBlock e) (Entry.cipherKey e) (Entry.cipherIv e)
      newStartBlock dstKey dstIv (u32 (offset / 4096))).ignoreErr
    pure (Entry.setCipherIv
      (Entry.setCipherKey (Entry.setStartBlock e newStartBlock) dstKey) dstIv)
  else pure e

/-- "Handle partial block": the context after it. -/
def writePartial (e : ByteMap) (ctx : AesCtx) (partialBlock : ByteMap)
    (offset : Nat) : FsM AesCtx :=
  if offset % 4096 ≠ 0 then do
    encryptBlock E d (Entry.startBlock e + offset / 4096) ctx partialBlock
    pure (nextCtx E ctx)
  else pure ctx

/-- "Handle the rest of the blocks": the entry after it. -/
def writeRest (e : ByteMap) (ctx : AesCtx)
    (offset totalBlock newBlock : Nat) : FsM ByteMap :=
  if newBlock ≠ 0 then do
    writeLoop E d (Entry.startBlock e + sizeToBlock offset) newBlock 0 ctx
    pure (Entry.setBlockCount e totalBlock)
  else pure e

/-- `fs_write(fsdesc, ino, buf, size, offset)`. -/
def fsWrite (ino size offset : Nat) : FsM Nat :=
  if FS_IO_MAX_SIZE < size then Prog.stop (.err (-einval))
  else do
    let e ← fsdr E (entryAddr ino) 304
    if Entry.size e < offset then Prog.stop (.err (-einval))
    else do
      let totalBlock := sizeToBlock (u64 (offset + size))
      let newBlock := subU32 totalBlock (Entry.blockCount e)
      let aba ← probeGrowth E d e newBlock
      let partialBlock ← mergePartial E d e offset
      let e ← relocate E d aba e totalBlock offset
      let iv := (Entry.cipherIv e + offset / 4096) % 2 ^ 128
      let ctx := aesInitCtxIv E (Entry.cipherKey e) iv
      let ctx ← writePartial E d e ctx partialBlock offset
      let e ← writeRest E d e ctx offset totalBlock newBlock
      fsdw E (Entry.setSize e (u64 (offset + size))) (entryAddr ino) 304
      Prog.when (aba = some 0)
        (clearAvailability E d (Entry.startBlock e)
          (subU32 totalBlock newBlock) 0)
      pure size

end RojocOS.Fs
