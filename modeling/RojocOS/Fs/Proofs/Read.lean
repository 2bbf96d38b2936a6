/-
What `fs_read` delivers.

The contents of a file are a function of its entry and the disk: block
`k` of the file is data block `start_block + k`, decrypted under the
file's key with the IV `cipher_iv + k` (`plainBlock`), and byte `a` of the
file is byte `a % 4096` of block `a / 4096` (`plain`). On a working disk,
and for a file whose block numbers do not wrap, `fs_read` returns exactly
the bytes asked for that the file has (`fsRead_plain`).

The loop invariant is that `bytes_read` is `block_idx * 4096 - offset`,
cut at the size: before the first block the subtraction is zero, after
the last one the cut applies.
-/
import RojocOS.Fs.Proofs.Tidy

namespace RojocOS.Fs

open ByteMap Prog

variable {E : FsEnv} {disk e : ByteMap} {index k : Nat} {w : FsWorld}
variable {fuel ino n offset size : Nat}

/-- Block `k` of the file with entry `e`, decrypted. -/
def plainBlock (E : FsEnv) (disk e : ByteMap) (k : Nat) : ByteMap :=
  (aesCtrXcryptBuffer E
    (aesInitCtxIv E (Entry.cipherKey e) ((Entry.cipherIv e + k) % 2 ^ 128))
    (slice disk (88988 + (Entry.startBlock e + k) * 4096) 4096) 0 4096).2

/-- Byte `a` of the file with entry `e`. -/
def plain (E : FsEnv) (disk e : ByteMap) (a : Nat) : UInt8 :=
  plainBlock E disk e (a / 4096) (a % 4096)

/-- The address of a data block whose number does not wrap. -/
theorem dataAddr (h : index < 2 ^ 20) :
    u64 (fsdesc.dataOffset + u32 (u32 index * 4096))
      = 88988 + index * 4096 := by
  simp only [fsdesc, u64, u32]
  omega

theorem decryptBlock_plain (hE : E.Reliable)
    (h : Entry.startBlock e + k < 2 ^ 20) (w : FsWorld) :
    ∃ ctx', decryptBlock E fsdesc (Entry.startBlock e + k)
        (aesInitCtxIv E (Entry.cipherKey e) ((Entry.cipherIv e + k) % 2 ^ 128)) w
      = (.ok (ctx', plainBlock E w.disk e k), { w with io := w.io + 1 }) := by
  unfold decryptBlock
  rw [bind_of_ok (fsdr_reliable hE _ _ _), dataAddr h]
  exact ⟨_, rfl⟩

-- ==== the loop

/-- The last block of a request, when nothing wraps. -/
theorem endBlock_eq (h1 : 1 ≤ size) (h : offset + size ≤ 2 ^ 32) :
    u32 (u64 (offset + size + (2 ^ 64 - 1)) / 4096)
      = (offset + size - 1) / 4096 := by
  unfold u64 u32
  omega

theorem readLoop_plain (hE : E.Reliable) (e : ByteMap)
    (h1 : 1 ≤ size) (hwrap : offset + size ≤ 2 ^ 32)
    (hend : Entry.startBlock e + (offset + size - 1) / 4096 < 2 ^ 20) :
    ∀ fuel idx done w, offset / 4096 ≤ idx → idx ≤ (offset + size - 1) / 4096 + 1 →
      done = min size (idx * 4096 - offset) →
      (offset + size - 1) / 4096 + 1 < idx + fuel →
      ∃ k t, readLoop E fsdesc e size offset fuel idx done w
        = (.ok size, { w with
            io := k, trace := t
            buf := copy w.buf done (plain E w.disk e) (offset + done)
              (size - done) }) := by
  intro fuel
  induction fuel with
  | zero =>
    intro idx done w h2 h3 h4 h5
    omega
  | succ fuel ih =>
    intro idx done w h2 h3 h4 h5
    unfold readLoop
    rw [endBlock_eq h1 hwrap]
    by_cases hle : idx ≤ (offset + size - 1) / 4096
    case neg =>
      have hdone : done = size := by omega
      refine ⟨w.io, w.trace, ?_⟩
      have hcopy : copy w.buf done (plain E w.disk e) (offset + done)
          (size - done) = w.buf := by
        funext x
        exact copy_of_not_mem (by omega)
      rw [if_neg hle, hcopy, hdone]
      rfl
    case pos =>
      rw [if_pos hle]
      obtain ⟨ctx', hdec⟩ := decryptBlock_plain hE (e := e) (k := idx) (by omega) w
      rw [bind_of_ok hdec]
      -- where the copy from this block starts, and how long it is
      have hstart : u32 (offset / 4096) = offset / 4096 :=
        Nat.mod_eq_of_lt (by omega)
      have hnext : u32 (idx + 1) = idx + 1 := Nat.mod_eq_of_lt (by omega)
      have hleft : u64 (size + 2 ^ 64 - done) = size - done := by
        unfold u64
        omega
      dsimp only
      rw [hstart, hnext, hleft]
      generalize hbo : (if idx = offset / 4096 then offset % 4096 else 0)
        = bo
      have hpos : idx * 4096 + bo = offset + done ∧ bo < 4096 := by
        by_cases hi : idx = offset / 4096
        · rw [if_pos hi] at hbo
          omega
        · rw [if_neg hi] at hbo
          omega
      generalize hbtc : min (4096 - bo) (size - done) = btc
      have hblock : copy w.buf done (plainBlock E w.disk e idx) bo btc
          = copy w.buf done (plain E w.disk e) (offset + done) btc := by
        refine copy_congr fun i hi => ?_
        unfold plain
        have hdiv : (offset + done + i) / 4096 = idx := by omega
        have hmod : (offset + done + i) % 4096 = bo + i := by omega
        rw [hdiv, hmod]
      obtain ⟨k, t, hrest⟩ := ih (idx + 1) (done + btc) { w with
          io := w.io + 1, trace := ⟨true, done, btc⟩ :: w.trace
          buf := copy w.buf done (plainBlock E w.disk e idx) bo btc }
        (by omega) (by omega) (by omega) (by omega)
      refine ⟨k, t, ?_⟩
      rw [bind_of_ok (x := copyToCaller done _ bo btc) rfl, hrest, hblock]
      have hjoin := copy_append w.buf (plain E w.disk e) done
        (offset + done) btc (size - (done + btc))
      have hsum : btc + (size - (done + btc)) = size - done := by omega
      rw [hsum, Nat.add_assoc offset] at hjoin
      rw [hjoin]

-- ==== the function

/-- What `fs_read` returns on a file whose block numbers do not wrap. -/
theorem fsRead_plain (hE : E.Reliable) (hino : ino < 2 ^ 32)
    (hblocks : Entry.startBlock (entryAt w.disk ino)
      + (Entry.size (entryAt w.disk ino) + 4095) / 4096 ≤ 2 ^ 20)
    (h1 : 1 ≤ size) (hmax : size ≤ FS_IO_MAX_SIZE)
    (hoff : offset < Entry.size (entryAt w.disk ino))
    (hn : n = min size (Entry.size (entryAt w.disk ino) - offset))
    (hfuel : (offset + n - 1) / 4096 - offset / 4096 + 2 ≤ fuel) :
    ∃ k t, fsRead E fsdesc fuel ino size offset w
      = (.ok n, { w with
          io := k, trace := t
          buf := copy w.buf 0 (plain E w.disk (entryAt w.disk ino)) offset n }) := by
  have hclip : (if Entry.size (entryAt w.disk ino) < u64 (size + offset)
      then Entry.size (entryAt w.disk ino) - offset else size) = n := by
    have hu : u64 (size + offset) = size + offset := by
      unfold u64 FS_IO_MAX_SIZE at *
      omega
    rw [hu]
    split <;> omega
  unfold fsRead
  rw [if_neg (by omega), bind_of_ok (fsdr_entry hE hino w), if_neg (by omega), hclip]
  have hstart : u32 (offset / 4096) = offset / 4096 :=
    Nat.mod_eq_of_lt (by omega)
  rw [hstart]
  have hloop := readLoop_plain hE (entryAt w.disk ino)
    (show 1 ≤ n by omega) (by omega) (by omega)
    fuel (offset / 4096) 0 { w with io := w.io + 1 } (Nat.le_refl _)
    (by omega) (by omega) (by omega)
  exact hloop

/-- The bytes it delivers. -/
theorem readResult_plain (hE : E.Reliable) (hino : ino < 2 ^ 32)
    (hblocks : Entry.startBlock (entryAt disk ino)
      + (Entry.size (entryAt disk ino) + 4095) / 4096 ≤ 2 ^ 20)
    (h1 : 1 ≤ size) (hmax : size ≤ FS_IO_MAX_SIZE)
    (hoff : offset < Entry.size (entryAt disk ino))
    (hn : n = min size (Entry.size (entryAt disk ino) - offset))
    (hfuel : (offset + n - 1) / 4096 - offset / 4096 + 2 ≤ fuel) :
    readResult E disk fuel ino size offset
      = .ok ((List.range n).map fun i =>
          plain E disk (entryAt disk ino) (offset + i)) := by
  obtain ⟨k, t, h⟩ := fsRead_plain hE (w := ⟨disk, 0, 0, ByteMap.zero, []⟩) hino
    hblocks h1 hmax hoff hn hfuel
  unfold readResult
  rw [h]
  show Except.ok _ = Except.ok _
  congr 1
  refine List.map_congr_left fun i hi => ?_
  rw [List.mem_range] at hi
  show copy _ 0 _ offset n i = _
  rw [copy_of_mem (by omega), Nat.sub_zero]

end RojocOS.Fs
