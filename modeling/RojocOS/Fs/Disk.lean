/-
The disk, the descriptor and the block layer of lib-filesystem.

# Constants

    BLOCK_SIZE                     4096
    sizeof(fs_metadata)              12
    sizeof(fs_inode_entry)          304   ref @0, size @8, start_block @16,
                                          block_count @20, cipher_key @24,
                                          cipher_iv @288 (16-aligned)
    FS_KEY_SIZE                     256
    AES_KEYLEN, AES_BLOCKLEN         16

# The environment

`fs_init` receives the disk reader and writer as function pointers; the
kernel passes `fs_read_disk` and `fs_write_disk`, which return `0` or
`-EIO`. `FsEnv.fault` decides which access fails (and after how many
bytes), `FsEnv.rand` is the byte stream behind `fsrng`, and `FsEnv.stack`
is what lies on the stack just below a local `fs_node_t`, which
`fs_remove` can read. `Cipher` and `KeyExpansion` are arbitrary functions
of the bytes they are given.

# The caller's buffer

`FsWorld.buf` is the memory at the `buf` argument of `fs_read` and
`fs_write`, indexed from that pointer. `encrypt_block` encrypts in place,
so `fs_write` changes it. `FsWorld.trace` records which bytes of the
buffer were read and written, newest access first.
-/
import RojocOS.Lib.Bytes
import RojocOS.Lib.Prog
import RojocOS.Lib.Word

namespace RojocOS.Fs

open ByteMap

-- ==== error numbers (errno.h)

def enoent : Int := 2
def eio : Int := 5
def eexist : Int := 17
def einval : Int := 22
def enospc : Int := 28
def enametoolong : Int := 36

/-- `SIZE_TO_BLOCK(x)`: a 64-bit rounded division, cut to 32 bits. -/
def sizeToBlock (x : Nat) : Nat := u32 (u64 (x + 4095) / 4096)

-- ==== environment

/-- What the file system code is run against. -/
structure FsEnv where
  /-- `fault k start size`: the `k`-th access fails after that many
  bytes. -/
  fault : Nat → Nat → Nat → Option Nat
  /-- The byte stream behind `fsrng`. -/
  rand : Nat → UInt8
  /-- The stack bytes below a local `fs_node_t`. -/
  stack : ByteMap
  /-- `KeyExpansion`, from the 16 key bytes it reads. -/
  keyExpansion : ByteMap → ByteMap
  /-- `Cipher`, from the round key and a 16-byte block. -/
  cipher : ByteMap → ByteMap → ByteMap

/-- No disk access fails. -/
def FsEnv.Reliable (E : FsEnv) : Prop :=
  ∀ k start size, E.fault k start size = none

/-- An access to the caller's buffer: `len` bytes from `off` on. -/
structure Access where
  write : Bool
  off : Nat
  len : Nat
  deriving DecidableEq, Repr

/-- The state the file system code works on. -/
structure FsWorld where
  disk : ByteMap
  /-- Disk accesses made so far. -/
  io : Nat
  /-- Random bytes drawn so far. -/
  rng : Nat
  /-- The caller's buffer. -/
  buf : ByteMap
  /-- The accesses made to it. -/
  trace : List Access := []

/-- A computation of the file system. -/
abbrev FsM := Prog FsWorld

/-- `fs_descriptor`, less its function pointers. -/
structure FsDescriptor where
  inodeCount : Nat
  blockCount : Nat
  nodeCount : Nat
  availBlockTableOffset : Nat
  inodeTableOffset : Nat
  blockUsageOffset : Nat
  treeUsageOffset : Nat
  treeOffset : Nat
  dataOffset : Nat
  deriving DecidableEq, Repr

/-- The statically zero-initialised descriptor. -/
def FsDescriptor.zero : FsDescriptor := ⟨0, 0, 0, 0, 0, 0, 0, 0, 0⟩

variable (E : FsEnv) (d : FsDescriptor)

/-- `fsdesc->fsdr`: the bytes read, or `-EIO`. -/
def fsdr (start size : Nat) : FsM ByteMap := fun w =>
  match E.fault w.io (u64 start) size with
  | none => (.ok (slice w.disk (u64 start) size), { w with io := w.io + 1 })
  | some _ => (.error (.err (-eio)), { w with io := w.io + 1 })

/-- `fsdesc->fsdw`: a failing write has written a prefix. -/
def fsdw (src : ByteMap) (start size : Nat) : FsM Unit := fun w =>
  match E.fault w.io (u64 start) size with
  | none =>
      (.ok (), { w with
        disk := copy w.disk (u64 start) src 0 size, io := w.io + 1 })
  | some m =>
      (.error (.err (-eio)), { w with
        disk := copy w.disk (u64 start) src 0 (min m size),
        io := w.io + 1 })

/-- `fsdesc->fsrng(buffer, size)`. -/
def fsrng (size : Nat) : FsM ByteMap := fun w =>
  (.ok (slice (fun i => E.rand (w.rng + i)) 0 size),
    { w with rng := w.rng + size })

/-- `fs_init`: the metadata read from disk is overwritten, and
`avail_block_table_offset` keeps the value it had. -/
def fsInit (d₀ : FsDescriptor) : FsM FsDescriptor := do
  let _ ← fsdr E 0 12
  let inodeCount := 16
  let blockCount := 16
  let nodeCount := 16
  let inodeTableOffset := 12
  let blockUsageOffset := inodeTableOffset + inodeCount * 304
  let treeUsageOffset := blockUsageOffset + inodeCount
  let treeOffset := treeUsageOffset + blockCount * 4096
  let dataOffset := treeOffset + nodeCount * 1160
  pure { d₀ with
    inodeCount, blockCount, nodeCount, inodeTableOffset,
    blockUsageOffset, treeUsageOffset, treeOffset, dataOffset }

-- ==== counter mode

/-- `struct AES_ctx`. -/
structure AesCtx where
  RoundKey : ByteMap
  Iv : ByteMap

/-- The bytes of a `uint128_t` in memory. -/
def ivBytes (iv : Nat) : ByteMap := store zero 0 16 iv

/-- `AES_init_ctx_iv(&ctx, key, (uint8_t *) &iv)`. -/
def aesInitCtxIv (key : ByteMap) (iv : Nat) : AesCtx :=
  { RoundKey := E.keyExpansion (slice key 0 16), Iv := ivBytes iv }

/-- The big-endian increment of `Iv`, from byte `bi - 1` downwards. -/
def ctrIncFrom (Iv : ByteMap) : Nat → ByteMap
  | 0 => Iv
  | bi + 1 =>
      if Iv bi = 255 then ctrIncFrom (store Iv bi 1 0) bi
      else store Iv bi 1 ((Iv bi).toNat + 1)

/-- One counter increment. -/
def ctrInc (Iv : ByteMap) : ByteMap := ctrIncFrom Iv 16

/-- Byte `i` of the key stream: a fresh `Cipher` output every 16 bytes,
the counter stepping in between. -/
def keyStream (ctx : AesCtx) (i : Nat) : UInt8 :=
  E.cipher ctx.RoundKey (slice (ctrInc^[i / 16] ctx.Iv) 0 16) (i % 16)

/-- `AES_CTR_xcrypt_buffer(ctx, buf + off, length)`. -/
def aesCtrXcryptBuffer (ctx : AesCtx) (buf : ByteMap) (off length : Nat) :
    AesCtx × ByteMap :=
  ({ ctx with Iv := ctrInc^[(length + 15) / 16] ctx.Iv },
   fun x =>
     if off ≤ x ∧ x < off + length then buf x ^^^ keyStream E ctx (x - off)
     else buf x)

-- ==== inode entries

namespace Entry

def ref (e : ByteMap) : Nat := load e 0 1
def size (e : ByteMap) : Nat := load e 8 8
def startBlock (e : ByteMap) : Nat := load e 16 4
def blockCount (e : ByteMap) : Nat := load e 20 4
def cipherKey (e : ByteMap) : ByteMap := slice e 24 256
def cipherIv (e : ByteMap) : Nat := load e 288 16

def setRef (e : ByteMap) (v : Nat) : ByteMap := store e 0 1 v
def setSize (e : ByteMap) (v : Nat) : ByteMap := store e 8 8 v
def setStartBlock (e : ByteMap) (v : Nat) : ByteMap := store e 16 4 v
def setBlockCount (e : ByteMap) (v : Nat) : ByteMap := store e 20 4 v
def setCipherKey (e key : ByteMap) : ByteMap := copy e 24 key 0 256
def setCipherIv (e : ByteMap) (v : Nat) : ByteMap := store e 288 16 v

end Entry

/-- Where entry `ino` of the inode table lies on disk. -/
def entryAddr (ino : Nat) : Nat := 12 + ino * 304

/-- Entry `ino` of a disk. -/
def entryAt (disk : ByteMap) (ino : Nat) : ByteMap :=
  slice disk (entryAddr ino) 304

/-- The static constants `ZERO` and `ONE`, as the bytes a writer reads. -/
def ZERO : ByteMap := fun _ => 0
def ONE : ByteMap := fun _ => 1

/-- The block-zeroing loop of `unref_inode`. -/
def zeroBlocks (start : Nat) : Nat → Nat → FsM Unit
  | 0, _ => pure ()
  | n + 1, i => do
      (fsdw E ZERO (d.dataOffset + start + i * 4096) 4096).ignoreErr
      zeroBlocks start n (i + 1)

/-- The `entry.ref == 0` branch of `unref_inode`. The entry is cleared
before its block list is read, so the loop over the blocks runs on the
cleared entry. -/
def releaseEntry (e : ByteMap) : FsM ByteMap :=
  if Entry.ref e = 0 then do
    let e := fill e 0 304 0
    zeroBlocks E d (Entry.startBlock e) (Entry.blockCount e) 0
    pure e
  else pure e

/-- `unref_inode`. -/
def unrefInode (ino : Nat) : FsM Unit := do
  let e ← fsdr E (d.inodeTableOffset + ino * 304) 304
  Prog.assert (0 < Entry.ref e)
  let e ← releaseEntry E d (Entry.setRef e (Entry.ref e - 1))
  fsdw E e (d.inodeTableOffset + ino * 304) 304

/-- `decrypt_block(fsdesc, index, ctx, buffer)`. -/
def decryptBlock (index : Nat) (ctx : AesCtx) : FsM (AesCtx × ByteMap) := do
  let buffer ← fsdr E (d.dataOffset + u32 (u32 index * 4096)) 4096
  pure (aesCtrXcryptBuffer E ctx buffer 0 4096)

/-- `encrypt_block(fsdesc, index, ctx, buffer)` on a local buffer: the
block and its usage byte are written. The context has advanced even when
a write fails, so it is a value and not a result. -/
def encryptBlock (index : Nat) (ctx : AesCtx) (buffer : ByteMap) : FsM Unit := do
  fsdw E (aesCtrXcryptBuffer E ctx buffer 0 4096).2
    (d.dataOffset + u32 (u32 index * 4096)) 4096
  fsdw E ONE (d.blockUsageOffset + u32 index) 1

/-- The context after one block. -/
def nextCtx (ctx : AesCtx) : AesCtx :=
  (aesCtrXcryptBuffer E ctx zero 0 4096).1

/-- The loop of `search_available_inode`. -/
def searchInodeFrom : Nat → Nat → FsM Nat
  | 0, _ => Prog.stop (.err (-enospc))
  | n + 1, i => do
      let used ← fsdr E (d.inodeTableOffset + i * 304) 1
      if used 0 = 0 then pure i else searchInodeFrom n (i + 1)

/-- `search_available_inode`: inode 0 is never handed out. -/
def searchAvailableInode : FsM Nat :=
  searchInodeFrom E d (d.inodeCount - 1) 1

/-- `fs_alloc_inode`. -/
def fsAllocInode : FsM Nat := do
  let inode ← searchAvailableInode E d
  let e ← fsdr E (d.inodeTableOffset + inode * 304) 304
  let e := Entry.setRef e (Entry.ref e + 1)
  fsdw E e (d.inodeTableOffset + inode * 304) 304
  pure inode

-- ==== the free-block search

/-- The `while` of `search_free_blocks`, with `rest` blocks not yet
looked at; every turn advances `start_block + count` by one. -/
def searchFreeFrom (n : Nat) : Nat → Nat → Nat → Nat → FsM Nat
  | 0, startBlock, count, _ =>
      if count = n then pure startBlock else Prog.stop (.err (-enospc))
  | rest + 1, startBlock, count, addr =>
      if count < n then do
        let dest ← fsdr E addr 1
        if dest 0 ≠ 0 then
          searchFreeFrom n rest (startBlock + (count + 1)) 0 (addr + 1)
        else searchFreeFrom n rest startBlock (count + 1) (addr + 1)
      else if count = n then pure startBlock
      else Prog.stop (.err (-enospc))

/-- `search_free_blocks`. -/
def searchFreeBlocks (n : Nat) : FsM Nat :=
  searchFreeFrom E n d.blockCount 0 0 d.availBlockTableOffset

/-- The loop of `are_blocks_avaiblable`: both `addr` and `i` advance. -/
def blocksAvailFrom (startBlock : Nat) : Nat → Nat → Nat → FsM Nat
  | 0, _, _ => pure 1
  | n + 1, i, addr => do
      let dest ← fsdr E (addr + sext startBlock + i) 1
      if dest 0 ≠ 0 then pure 0
      else blocksAvailFrom startBlock n (i + 1) (addr + 1)

/-- `are_blocks_avaiblable`: `1` or `0`. -/
def areBlocksAvaiblable (startBlock n : Nat) : FsM Nat :=
  blocksAvailFrom E startBlock n 0 d.availBlockTableOffset

/-- `set_availability`. -/
def setAvailability (block : Nat) (value : ByteMap) : FsM Unit :=
  fsdw E value (d.availBlockTableOffset + sext block) 1

/-- The loop of `copy_block`: one context decrypts, one encrypts, both
running on from block to block. -/
def copyBlockFrom (src dst : Nat) :
    Nat → Nat → AesCtx → AesCtx → FsM Unit
  | 0, _, _, _ => pure ()
  | n + 1, i, ctxDec, ctxEnc => do
      let (ctxDec, buf) ← decryptBlock E d (src + i) ctxDec
      encryptBlock E d (dst + i) ctxEnc buf
      copyBlockFrom src dst n (i + 1) ctxDec (nextCtx E ctxEnc)

/-- `copy_block`. -/
def copyBlock (src : Nat) (srcKey : ByteMap) (srcIv : Nat)
    (dst : Nat) (dstKey : ByteMap) (dstIv n : Nat) : FsM Unit :=
  copyBlockFrom E d src dst n 0
    (aesInitCtxIv E srcKey srcIv) (aesInitCtxIv E dstKey dstIv)

end RojocOS.Fs
