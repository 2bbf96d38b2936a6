/-
File isolation: what a write to one file does to reads of another.

# The defect

`fs_init` never sets `avail_block_table_offset`, so the allocator looks
for free blocks in the bytes at the start of the disk (the metadata and
inode 0, all zero) while `encrypt_block` marks its blocks in the map at
`block_usage_offset`. The first write to any file is therefore given
block 0, whoever holds it: `second_write_clobbers_first`.

# What does hold

A run keeps its files apart when every write that changes the number of
blocks of its file happens while all other live files are empty
(`Apart`). Then a file that has data is never next to one that grows,
and the only bytes a write to an empty file changes are those of its own
entry.
-/
import RojocOS.Fs.Proofs.Tidy

namespace RojocOS.Fs

open ByteMap Prog

variable {E : FsEnv}

-- ==== reading

/-- The states a read of inode `j` cannot tell apart: the same entry
and the same data area. -/
structure SameFile (j : Nat) (w w' : FsWorld) : Prop where
  entry : ∀ a, entryAddr j ≤ a → a < entryAddr j + 304 → w'.disk a = w.disk a
  data : ∀ a, 88988 ≤ a → w'.disk a = w.disk a
  io : w'.io = w.io
  buf : w'.buf = w.buf

theorem fsdr_blind {j start size : Nat}
    (h : ∀ a, u64 start ≤ a → a < u64 start + size →
      (entryAddr j ≤ a ∧ a < entryAddr j + 304) ∨ 88988 ≤ a) :
    Blind (SameFile j) (fsdr E start size) := by
  intro w w' hw
  have hs : slice w'.disk (u64 start) size = slice w.disk (u64 start) size := by
    refine slice_congr fun a h1 h2 => ?_
    rcases h a h1 h2 with he | hd
    · exact hw.entry a he.1 he.2
    · exact hw.data a hd
  unfold fsdr
  rw [hw.io, hs]
  cases E.fault w.io (u64 start) size with
  | none => exact ⟨rfl, hw.entry, hw.data, rfl, hw.buf⟩
  | some _ => exact ⟨rfl, hw.entry, hw.data, rfl, hw.buf⟩

theorem decryptBlock_blind {j : Nat} (index : Nat) (ctx : AesCtx) :
    Blind (SameFile j) (decryptBlock E fsdesc index ctx) := by
  refine Blind.bind (fsdr_blind fun a h1 _ => .inr ?_) fun _ => Blind.pure _
  have h := u32_lt (u32 index * 4096)
  have hu : u64 (fsdesc.dataOffset + u32 (u32 index * 4096))
      = 88988 + u32 (u32 index * 4096) := by
    simp only [fsdesc, u64]
    omega
  omega

theorem readLoop_blind {j : Nat} (e : ByteMap) (size offset : Nat) :
    ∀ fuel idx done, Blind (SameFile j)
      (readLoop E fsdesc e size offset fuel idx done) := by
  intro fuel
  induction fuel with
  | zero => exact fun _ _ => Blind.stop _
  | succ fuel ih =>
    intro idx done
    refine Blind.ite (Blind.bind (decryptBlock_blind _ _) fun r => ?_) (Blind.pure _)
    refine Blind.bind (fun w w' hw => ⟨rfl, ?_⟩) fun _ => ih _ _
    refine ⟨hw.entry, hw.data, hw.io, ?_⟩
    show copy w'.buf _ _ _ _ = copy w.buf _ _ _ _
    rw [hw.buf]

theorem fsRead_blind {j : Nat} (hj : j < 16) (fuel size offset : Nat) :
    Blind (SameFile j) (fsRead E fsdesc fuel j size offset) := by
  refine Blind.ite (Blind.stop _) ?_
  refine Blind.bind (fsdr_blind fun a h1 h2 => .inl ?_) fun e => ?_
  · rw [u64_entryAddr (by omega)] at h1 h2
    exact ⟨h1, h2⟩
  · exact Blind.ite (Blind.pure _) (readLoop_blind _ _ _ _ _ _)

/-- Equal entries and equal data areas: equal reads. -/
theorem readResult_congr {disk disk' : ByteMap} {j : Nat} (hj : j < 16)
    (he : ∀ a, entryAddr j ≤ a → a < entryAddr j + 304 → disk' a = disk a)
    (hd : ∀ a, 88988 ≤ a → disk' a = disk a) (fuel size offset : Nat) :
    readResult E disk' fuel j size offset
      = readResult E disk fuel j size offset := by
  obtain ⟨hval, hst⟩ := fsRead_blind hj fuel size offset
    ⟨disk, 0, 0, ByteMap.zero, []⟩ ⟨disk', 0, 0, ByteMap.zero, []⟩ ⟨he, hd, rfl, rfl⟩
  unfold readResult
  rcases h1 : fsRead E fsdesc fuel j size offset
    ⟨disk, 0, 0, ByteMap.zero, []⟩ with ⟨r, w⟩
  rcases h2 : fsRead E fsdesc fuel j size offset
    ⟨disk', 0, 0, ByteMap.zero, []⟩ with ⟨r', w'⟩
  rw [h1, h2] at hval hst
  subst hval
  cases r with
  | ok n =>
    show Except.ok _ = Except.ok _
    rw [hst.buf]
  | error e => rfl

/-- A read of an empty file delivers nothing. -/
theorem readResult_empty (hE : E.Reliable) {disk : ByteMap} {j : Nat}
    (hj : j < 16) (hz : Entry.size (entryAt disk j) = 0) (fuel size offset : Nat) :
    readResult E disk fuel j size offset
      = if FS_IO_MAX_SIZE < size then .error (.err (-einval)) else .ok [] := by
  unfold readResult fsRead
  by_cases hmax : FS_IO_MAX_SIZE < size
  · rw [if_pos hmax, if_pos hmax]
    rfl
  · rw [if_neg hmax, if_neg hmax, bind_of_ok (fsdr_entry hE (by omega) _),
      if_pos (Nat.le_trans (Nat.le_of_eq hz) (Nat.zero_le _))]
    rfl

-- ==== the theorem

/-- A write of nothing to an empty file rewrites its entry and nothing
else. -/
theorem fsWrite_nothing (hE : E.Reliable) {w : FsWorld} {ino : Nat}
    (h16 : ino < 16) (hb : Entry.blockCount (entryAt w.disk ino) = 0) :
    ∃ e k, fsWrite E fsdesc ino 0 0 w = (.ok 0, { w with
      disk := copy w.disk (entryAddr ino) e 0 304, io := k }) := by
  unfold fsWrite
  rw [if_neg (by decide), bind_of_ok (fsdr_entry hE (by omega) w),
    if_neg (Nat.not_lt_zero _)]
  have hnew : subU32 (sizeToBlock (u64 (0 + 0)))
      (Entry.blockCount (entryAt w.disk ino)) = 0 := by
    rw [hb]
    decide
  rw [hnew]
  show ∃ e k, (fsdw E _ (entryAddr ino) 304 >>= _) _ = _
  rw [bind_of_ok (fsdw_entry hE (by omega) _ _)]
  exact ⟨_, _, rfl⟩

/-- In a run whose steps all meet `Apart`, a write to one file leaves
what every read of another file returns. -/
theorem write_leaves_other_files (hE : E.Reliable) {w w' : FsWorld}
    (hrun : FsRun E Apart (start E) w) {i j : Nat} (hij : i ≠ j)
    (hj : Live w j) {buf : ByteMap} {size offset : Nat}
    (hc : Apart w (.write i buf size offset)) {n : Int}
    (hw : (FsOp.write i buf size offset).exec E w = (.ok n, w')) (fuel sz off : Nat) :
    readResult E w'.disk fuel j sz off = readResult E w.disk fuel j sz off := by
  have ht : Tidy w.disk := hrun.tidy hE (start_tidy E)
  obtain ⟨hi, hvol, halone⟩ := hc
  obtain ⟨m, w₁, hwr, hres⟩ := bind_ok.mp
    (show (do let n ← fsWrite E fsdesc i size offset
              pure (n : Int)) { w with buf := buf } = (.ok n, w') from hw)
  cases hres
  obtain ⟨-, e, hwrote⟩ := fsWrite_ok (Nat.lt_trans hi.1 (by decide)) hwr
  have hoff := hwrote.inside
  have hlow := hwrote.table_tidy ht hi
  have hentry : ∀ a, entryAddr j ≤ a → a < entryAddr j + 304 → w'.disk a = w.disk a := by
    intro a h1 h2
    rw [hlow a (entryAddr_low hj.1 h2)]
    refine copy_of_not_mem fun h => hij ?_
    unfold entryAddr at *
    omega
  by_cases hz : Entry.size (entryAt w.disk j) = 0
  case pos =>
    have hz' : Entry.size (entryAt w'.disk j) = 0 := by
      rw [entryAt_congr hentry]
      exact hz
    rw [readResult_empty hE hj.1 hz, readResult_empty hE hj.1 hz']
  case neg =>
    -- `j` has data, so `i` has none, and the write may not give it any
    have hi0 : Entry.size (entryAt w.disk i) = 0 :=
      (ht.one i j hi.1 hj.1 hij hi.2 hj.2).resolve_right hz
    have hb0 := ht.empty i hi.1 hi0
    have hsame : (offset + size + 4095) / 4096
        = Entry.blockCount (entryAt w.disk i) := by
      by_contra hne
      exact hz (halone hne j hj (Ne.symm hij))
    have hoff0 : offset = 0 := by omega
    have hsize0 : size = 0 := by omega
    subst hoff0 hsize0
    obtain ⟨e', k, hrw⟩ := fsWrite_nothing hE (w := { w with buf := buf }) hi.1 hb0
    rw [hrw] at hwr
    cases hwr
    refine readResult_congr hj.1 hentry (fun a ha => ?_) fuel sz off
    refine copy_of_not_mem fun h => ?_
    have := hi.1
    unfold entryAddr at h
    omega

/-- Two files, one byte in the first. -/
def oneByteFile : FsWorld :=
  runAll plainEnv (start plainEnv) [.allocInode, .allocInode, .write 1 (fun _ => 65) 1 0]

/-- The run to `oneByteFile` meets `Apart`: its write happens while
inode 2 is empty. -/
theorem oneByteFile_run : FsRun plainEnv Apart (start plainEnv) oneByteFile := by
  have halone : ∀ j < 16,
      0 < Entry.ref (entryAt (runAll plainEnv (start plainEnv)
        [.allocInode, .allocInode]).disk j) → j ≠ 1 →
      Entry.size (entryAt (runAll plainEnv (start plainEnv)
        [.allocInode, .allocInode]).disk j) = 0 := by
    decide +kernel
  refine runAll_run plainEnv _ _ ⟨trivial, ?_, trivial, ?_, ?_, ?_, trivial⟩
  · decide +kernel
  · decide +kernel
  · refine ⟨⟨by omega, ?_⟩, by omega, fun _ j hj => halone j hj.1 hj.2⟩
    decide +kernel
  · decide +kernel

/-- A write to the empty second file that meets `Apart`. -/
theorem write_leaves_other_files_oneByteFile :
    readResult plainEnv
        ((FsOp.write 2 (fun _ => 66) 0 0).exec plainEnv oneByteFile).2.disk 2 1 1 0
      = readResult plainEnv oneByteFile.disk 2 1 1 0 := by
  have h2 : 0 < Entry.ref (entryAt oneByteFile.disk 2) := by decide +kernel
  have h1 : 0 < Entry.ref (entryAt oneByteFile.disk 1) := by decide +kernel
  have hb : Entry.blockCount (entryAt oneByteFile.disk 2) = 0 := by
    decide +kernel
  obtain ⟨e, k, hw⟩ := fsWrite_nothing plainEnv_reliable
    (w := { oneByteFile with buf := fun _ => 66 }) (by omega) hb
  exact write_leaves_other_files plainEnv_reliable oneByteFile_run
    (i := 2) (by omega) ⟨by omega, h1⟩
    ⟨⟨by omega, h2⟩, by omega, fun h => absurd hb.symm h⟩
    (n := 0) (bind_ok.mpr ⟨(), _, rfl, bind_ok.mpr
      ⟨0, _, hw, by rw [show FsOp.exec plainEnv _ _ = _ from
        bind_of_ok (x := Prog.modify _) rfl, bind_of_ok hw]; rfl⟩⟩)
    2 1 0

/-- Writing one byte to the second file changes what the first one
holds: both are given block 0. -/
theorem second_write_clobbers_first :
    FsRun plainEnv (fun _ _ => True) (start plainEnv) oneByteFile
      ∧ Live oneByteFile 1 ∧ Live oneByteFile 2
      ∧ (((FsOp.write 2 (fun _ => 66) 1 0).exec plainEnv oneByteFile).1).toOption
          = some 1
      ∧ (readResult plainEnv oneByteFile.disk 2 1 1 0).toOption = some [65]
      ∧ (readResult plainEnv ((FsOp.write 2 (fun _ => 66) 1 0).exec plainEnv
          oneByteFile).2.disk 2 1 1 0).toOption = some [66] := by
  refine ⟨?_, ⟨by omega, by decide +kernel⟩, ⟨by omega, by decide +kernel⟩,
    by decide +kernel, by decide +kernel, by decide +kernel⟩
  exact runAll_run plainEnv _ _
    ⟨trivial, by decide +kernel, trivial, by decide +kernel, trivial,
      by decide +kernel, trivial⟩

end RojocOS.Fs
