/-
The disk driver: `readdisk` and `writedisk` of k-hardware.c on top of
`readsect` and `writesect`, and the two functions that give the file
system its part of the disk.

# Sectors

The controller transfers 512 bytes between memory and a sector, whose
number is a `uint32_t`. It can raise its error bit: then `readsect` has
moved nothing, `writesect` may have changed a part of the sector, and the
result is the error register, negated. A register of 0 is therefore taken
for success.

# Loops

The middle loops advance one pointer, one counter and the sector number
by one sector per turn, and leave when less than a sector is left. They
run as often as a sector fits in what there was, which is the argument
they recurse on.
-/
import RojocOS.Fs.Disk

namespace RojocOS.Kernel

open ByteMap

-- ==== the machine

/-- What the driver depends on. -/
structure IdeEnv where
  /-- The sector accesses that raise the error bit, by number: the error
  register, and how many bytes of a write have reached the sector. -/
  fault : Nat → Option (UInt8 × Nat)
  /-- The bytes a local array starts with. -/
  stack : ByteMap

/-- Every sector access succeeds. -/
def IdeEnv.Reliable (E : IdeEnv) : Prop := ∀ k, E.fault k = none

/-- The disk, the memory, and the number of sector accesses made. -/
structure IdeState where
  disk : ByteMap
  mem : ByteMap
  io : Nat

abbrev IdeM := Prog IdeState

def SECTORSIZE : Nat := 512

def DISKSIZE_MAX : Nat := 2 ^ 32 * SECTORSIZE

variable (E : IdeEnv)

/-- The end of `readsect` and `writesect` when the error bit is set. -/
def sectError {α : Type} (error : UInt8) (a : α) : Except Stop α :=
  if error = 0 then .ok a else .error (.err (-error.toNat))

/-- `readsect(dst + at_, src_sect)`: the destination with the sector in
it. -/
def readsect (dst : ByteMap) (at_ srcSect : Nat) : IdeM ByteMap := fun s =>
  let s' := { s with io := s.io + 1 }
  match E.fault s.io with
  | none => (.ok (copy dst at_ s.disk (srcSect * SECTORSIZE) SECTORSIZE), s')
  | some (error, _) => (sectError error dst, s')

/-- `writesect(src + from_, dst_sect)`. -/
def writesect (src : ByteMap) (from_ dstSect : Nat) : IdeM Unit := fun s =>
  let put n := { s with
    disk := copy s.disk (dstSect * SECTORSIZE) src from_ n, io := s.io + 1 }
  match E.fault s.io with
  | none => (.ok (), put SECTORSIZE)
  | some (error, n) => (sectError error (), put (min n SECTORSIZE))

/-- The `outb`s with which a sector is asked for: port and byte. -/
def sectorCommand (command : UInt8) (sect : UInt32) : List (Nat × UInt8) :=
  [(0x1F2, 1), (0x1F3, sect.toUInt8), (0x1F4, (sect >>> 8).toUInt8),
    (0x1F5, (sect >>> 16).toUInt8), (0x1F6, ((sect >>> 24) ||| 0xE0).toUInt8),
    (0x1F7, command)]

/-- Those of `readsect`. -/
def readsectPorts (srcSect : UInt32) : List (Nat × UInt8) := sectorCommand 0x20 srcSect

/-- Those of `writesect`. -/
def writesectPorts (dstSect : UInt32) : List (Nat × UInt8) := sectorCommand 0x30 dstSect

-- ==== writedisk

/-- Phase 1, the leading partial sector: what is left of `ptr`, `size`
and `dst_sect`. -/
def writeHead (ptr offset size dstSect : Nat) : IdeM (Nat × Nat × Nat) :=
  if offset ≠ 0 then do
    let tmp ← readsect E E.stack 0 dstSect
    let n := min (SECTORSIZE - offset) size
    let s ← Prog.get
    writesect E (copy tmp offset s.mem ptr n) 0 dstSect
    pure (ptr + n, size - n, u32 (dstSect + 1))
  else pure (ptr, size, dstSect)

/-- Phase 2, `n` whole sectors. -/
def writeSectors : Nat → Nat → Nat → IdeM Unit
  | 0, _, _ => pure ()
  | n + 1, ptr, dstSect => do
      let s ← Prog.get
      writesect E s.mem ptr dstSect
      writeSectors n (ptr + SECTORSIZE) (u32 (dstSect + 1))

/-- Phase 3, the trailing partial sector. -/
def writeTail (ptr size dstSect : Nat) : IdeM Unit :=
  if 0 < size then do
    let tmp ← readsect E E.stack 0 dstSect
    let s ← Prog.get
    writesect E (copy tmp 0 s.mem ptr size) 0 dstSect
  else pure ()

/-- `writedisk(ptr, start, size)`. -/
def writedisk (ptr start size : Nat) : IdeM Unit :=
  if size = 0 then pure ()
  else if DISKSIZE_MAX ≤ start ∨ DISKSIZE_MAX ≤ size ∨ DISKSIZE_MAX < u64 (start + size) then
    Prog.stop (.err (-1))
  else do
    let (ptr, size, dstSect) ←
      writeHead E ptr (start % SECTORSIZE) size (u32 (start / SECTORSIZE))
    let n := size / SECTORSIZE
    writeSectors E n ptr dstSect
    writeTail E (ptr + n * SECTORSIZE) (size % SECTORSIZE) (u32 (dstSect + n))

-- ==== readdisk

/-- The loop over the other sectors. -/
def readSectors : Nat → Nat → Nat → IdeM Unit
  | 0, _, _ => pure ()
  | n + 1, ptr, srcSect => do
      let s ← Prog.get
      let mem ← readsect E s.mem ptr srcSect
      Prog.modify fun s => { s with mem := mem }
      readSectors n (ptr + SECTORSIZE) (u32 (srcSect + 1))

/-- `readdisk(ptr, start, size)`. The local array is filled once for the
first sector and once for the last. -/
def readdisk (ptr start size : Nat) : IdeM Unit :=
  if size = 0 then pure ()
  else if DISKSIZE_MAX ≤ start ∨ DISKSIZE_MAX ≤ size ∨ DISKSIZE_MAX ≤ u64 (start + size) then
    Prog.stop (.err (-1))
  else do
    let srcSect := u32 (start / SECTORSIZE)
    let buffer ← readsect E E.stack 0 srcSect
    let count := min (SECTORSIZE - start % SECTORSIZE) size
    Prog.modify fun s => { s with mem := copy s.mem ptr buffer (start % SECTORSIZE) count }
    let n := (size - count) / SECTORSIZE
    readSectors E n (ptr + count) (u32 (srcSect + 1))
    let count := count + n * SECTORSIZE
    if count = size then pure ()
    else do
      let buffer ← readsect E buffer 0 (u32 (u32 (srcSect + 1) + n))
      Prog.modify fun s => { s with mem := copy s.mem (ptr + count) buffer 0 (size - count) }

-- ==== the file system

/-- Where the file system's part of the disk begins. -/
def FILESYSTEM_DISK_OFFSET : Nat := 1024 * 512

/-- The result of `fs_read_disk` and `fs_write_disk`: every failure is
`-EIO`. -/
def asEio (x : IdeM Unit) : IdeM Unit := fun s =>
  match x s with
  | (.error (.err _), s') => (.error (.err (-Fs.eio)), s')
  | r => r

/-- `fs_read_disk(ptr, start, size)`. -/
def fsReadDisk (ptr start size : Nat) : IdeM Unit :=
  asEio (readdisk E ptr (u64 (start + FILESYSTEM_DISK_OFFSET)) size)

/-- `fs_write_disk(ptr, start, size)`. -/
def fsWriteDisk (ptr start size : Nat) : IdeM Unit :=
  asEio (writedisk E ptr (u64 (start + FILESYSTEM_DISK_OFFSET)) size)

end RojocOS.Kernel
