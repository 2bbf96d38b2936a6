/-
The disk driver on a disk that works: a range of bytes is written or
read, whatever its alignment.

Every phase is one `copy` between memory and disk. A partial sector is
read, changed and written back, which is `copy_patch`; the phases join
because two copies that meet are one (`copy_append`). So `writedisk` and
`readdisk` are a single copy each, and what a disk holds after many
writes is settled byte by byte.

The file system sees the disk from `FILESYSTEM_DISK_OFFSET` on. Its
`fsdr` and `fsdw` on a disk that works are this driver's `fs_read_disk`
and `fs_write_disk` there.

That sectors are apart is an assumption here. What the controller is told
of a sector number is its low 29 bits (`sector_address_iff`).
-/
import RojocOS.Fs.Proofs.Tidy
import RojocOS.Kernel.Ide

namespace RojocOS.Kernel

open ByteMap Prog

variable {E : IdeEnv} (hE : E.Reliable) {a b count io o offset sect : Nat}
variable {n size start : Nat} {s : IdeState} {src : ByteMap}

-- ==== sectors

section Sectors

include hE

theorem readsect_run (dst : ByteMap) (at_ sect : Nat) (s : IdeState) :
    readsect E dst at_ sect s
      = (.ok (copy dst at_ s.disk (sect * 512) 512), { s with io := s.io + 1 }) := by
  unfold readsect
  rw [hE]
  rfl

theorem writesect_run (src : ByteMap) (from_ sect : Nat) (s : IdeState) :
    writesect E src from_ sect s
      = (.ok (), { s with
          disk := copy s.disk (sect * 512) src from_ 512, io := s.io + 1 }) := by
  unfold writesect
  rw [hE]
  rfl

/-- A sector read, changed between `o` and `o + n`, and written back. -/
theorem patchSector_run (ptr sect : Nat) (h : o + n ≤ 512) (s : IdeState) : (do
      let tmp ← readsect E E.stack 0 sect
      let s ← Prog.get
      writesect E (copy tmp o s.mem ptr n) 0 sect : IdeM Unit) s
      = (.ok (), { s with
          disk := copy s.disk (sect * 512 + o) s.mem ptr n, io := s.io + 2 }) := by
  rw [bind_of_ok (readsect_run hE _ _ _ _), get_bind, writesect_run hE]
  simp only [copy_patch h]

/-- The whole sectors of `writedisk`. -/
theorem writeSectors_run (n : Nat) :
    ∀ ptr sect s, sect + n < 2 ^ 32 → writeSectors E n ptr sect s
      = (.ok (), { s with
          disk := copy s.disk (sect * 512) s.mem ptr (n * 512), io := s.io + n }) := by
  induction n with
  | zero =>
    intro ptr sect s _
    simp only [Nat.zero_mul, copy_zero]
    rfl
  | succ n ih =>
    intro ptr sect s h
    have hsect : u32 (sect + 1) = sect + 1 := Nat.mod_eq_of_lt (by omega)
    unfold writeSectors
    rw [get_bind, bind_of_ok (writesect_run hE _ _ _ _), hsect, ih _ _ _ (by omega)]
    simp only [SECTORSIZE, Nat.add_mul, Nat.one_mul, copy_append]
    rw [Nat.add_comm 512, Nat.add_assoc, Nat.add_comm 1]

/-- The whole sectors of `readdisk`. -/
theorem readSectors_run (n : Nat) :
    ∀ ptr sect s, sect + n < 2 ^ 32 → readSectors E n ptr sect s
      = (.ok (), { s with
          mem := copy s.mem ptr s.disk (sect * 512) (n * 512), io := s.io + n }) := by
  induction n with
  | zero =>
    intro ptr sect s _
    simp only [Nat.zero_mul, copy_zero]
    rfl
  | succ n ih =>
    intro ptr sect s h
    have hsect : u32 (sect + 1) = sect + 1 := Nat.mod_eq_of_lt (by omega)
    unfold readSectors
    rw [get_bind, bind_of_ok (readsect_run hE _ _ _ _),
      bind_of_ok (x := Prog.modify _) rfl, hsect, ih _ _ _ (by omega)]
    simp only [SECTORSIZE, Nat.add_mul, Nat.one_mul, copy_append]
    rw [Nat.add_comm 512, Nat.add_assoc, Nat.add_comm 1]

end Sectors

-- ==== ranges

section Ranges

include hE

/-- What the leading partial sector takes. -/
def headSize (offset size : Nat) : Nat := if offset = 0 then 0 else min (512 - offset) size

omit hE in
theorem headSize_le (offset size : Nat) : headSize offset size ≤ size := by
  unfold headSize
  split
  · exact Nat.zero_le size
  · exact Nat.min_le_right _ _

omit hE in
/-- Sector numbers inside the bound fit their 32 bits. -/
theorem u32_sector (h : start + size < DISKSIZE_MAX) :
    u32 (start / SECTORSIZE) = start / SECTORSIZE :=
  Nat.mod_eq_of_lt (by unfold DISKSIZE_MAX SECTORSIZE at *; omega)

omit hE in
theorem sector_add_offset (start : Nat) :
    start / SECTORSIZE * 512 + start % SECTORSIZE = start := Nat.div_add_mod' start 512

omit hE in
/-- After the first sector nothing is left, or the next one begins. -/
theorem nextSector (h : start + size < DISKSIZE_MAX) :
    headSize (start % SECTORSIZE) size = size
      ∨ (if start % SECTORSIZE = 0 then start / SECTORSIZE else u32 (start / SECTORSIZE + 1)) * 512
        = start + headSize (start % SECTORSIZE) size := by
  unfold DISKSIZE_MAX SECTORSIZE at *
  unfold headSize
  by_cases ho : start % 512 = 0
  · rw [if_pos ho, if_pos ho]
    exact .inr (by omega)
  · rw [if_neg ho, if_neg ho]
    rcases Nat.le_total size (512 - start % 512) with hle | hle
    · exact .inl (Nat.min_eq_right hle)
    · refine .inr ?_
      rw [Nat.min_eq_left hle, u32, Nat.mod_eq_of_lt (by omega)]
      omega

theorem writeHead_run (ptr size sect : Nat) (ho : offset < 512) (s : IdeState) :
    ∃ io, writeHead E ptr offset size sect s
      = (.ok (ptr + headSize offset size, size - headSize offset size,
            if offset = 0 then sect else u32 (sect + 1)), { s with
          disk := copy s.disk (sect * 512 + offset) s.mem ptr (headSize offset size)
          io := io }) := by
  unfold writeHead headSize
  by_cases h0 : offset = 0
  · rw [if_neg (not_not.mpr h0), if_pos h0, if_pos h0, copy_zero]
    exact ⟨s.io, rfl⟩
  · rw [if_pos h0, if_neg h0, if_neg h0]
    have hrun := patchSector_run hE ptr sect
      (show offset + min (512 - offset) size ≤ 512 by omega) s
    have hrest := bind_of_ok (f := fun _ => (pure (ptr + min (512 - offset) size,
      size - min (512 - offset) size, u32 (sect + 1)) : IdeM (Nat × Nat × Nat))) hrun
    simp only [Prog.bind_assoc] at hrest
    exact ⟨s.io + 2, hrest⟩

theorem writeTail_run (ptr sect : Nat) (h : size < 512) (s : IdeState) :
    ∃ io, writeTail E ptr size sect s
      = (.ok (), { s with disk := copy s.disk (sect * 512) s.mem ptr size, io := io }) := by
  unfold writeTail
  by_cases hs : 0 < size
  · rw [if_pos hs]
    have hrun := patchSector_run hE ptr sect (show 0 + size ≤ 512 by omega) s
    rw [Nat.add_zero] at hrun
    exact ⟨s.io + 2, hrun⟩
  · rw [if_neg hs, Nat.eq_zero_of_not_pos hs, copy_zero]
    exact ⟨s.io, rfl⟩

/-- Phases 2 and 3 together, for a range that starts on a sector. -/
theorem writeAligned_run (ptr : Nat) (h : sect * 512 + size < 2 ^ 41) (s : IdeState) :
    ∃ io, (do
        writeSectors E (size / SECTORSIZE) ptr sect
        writeTail E (ptr + size / SECTORSIZE * SECTORSIZE) (size % SECTORSIZE)
          (u32 (sect + size / SECTORSIZE)) : IdeM Unit) s
      = (.ok (), { s with disk := copy s.disk (sect * 512) s.mem ptr size, io := io }) := by
  have hn : sect + size / 512 < 2 ^ 32 := by omega
  have hu : u32 (sect + size / 512) = sect + size / 512 := Nat.mod_eq_of_lt hn
  have hsize : size / 512 * 512 + size % 512 = size := Nat.div_add_mod' size 512
  obtain ⟨io, htail⟩ := writeTail_run hE (ptr + size / 512 * 512)
    (sect + size / 512) (Nat.mod_lt size (by decide : 0 < 512)) { s with
      disk := copy s.disk (sect * 512) s.mem ptr (size / 512 * 512), io := s.io + size / 512 }
  refine ⟨io, (bind_of_ok (writeSectors_run hE _ ptr sect s hn)).trans ?_⟩
  simp only [Nat.add_mul, copy_append, hsize] at htail
  rw [← hu] at htail
  exact htail

/-- `writedisk` is one copy to the disk. -/
theorem writedisk_run (ptr : Nat) (h : start + size < DISKSIZE_MAX) (s : IdeState) :
    ∃ io, writedisk E ptr start size s
      = (.ok (), { s with disk := copy s.disk start s.mem ptr size, io := io }) := by
  unfold writedisk
  by_cases h0 : size = 0
  · rw [if_pos h0, h0, copy_zero]
    exact ⟨s.io, rfl⟩
  have hmax : ¬ (DISKSIZE_MAX ≤ start ∨ DISKSIZE_MAX ≤ size
      ∨ DISKSIZE_MAX < u64 (start + size)) := by
    unfold DISKSIZE_MAX SECTORSIZE u64 at *
    omega
  rw [if_neg h0, if_neg hmax]
  have hoff : start % SECTORSIZE < 512 := Nat.mod_lt _ (by decide)
  obtain ⟨io, hhead⟩ := writeHead_run hE ptr size (u32 (start / SECTORSIZE)) hoff s
  rw [u32_sector h] at hhead ⊢
  rw [sector_add_offset] at hhead
  have hle := headSize_le (start % SECTORSIZE) size
  have hnext := nextSector h
  generalize headSize (start % SECTORSIZE) size = m at hhead hle hnext
  generalize (if start % SECTORSIZE = 0 then start / SECTORSIZE
    else u32 (start / SECTORSIZE + 1)) = sect at hhead hnext
  rw [bind_of_ok hhead]
  rcases hnext with rfl | hnext
  · -- the range ends in its first sector
    rw [Nat.sub_self]
    exact ⟨io, rfl⟩
  · unfold DISKSIZE_MAX SECTORSIZE at h
    obtain ⟨io', hrest⟩ := writeAligned_run hE (ptr + m)
      (show sect * 512 + (size - m) < 2 ^ 41 by omega)
      { s with disk := copy s.disk start s.mem ptr m, io := io }
    simp only [hnext, copy_append, Nat.add_sub_cancel' hle] at hrest
    exact ⟨io', hrest⟩

/-- `readdisk` after its first sector, when the rest starts on one. -/
theorem readRest_run (ptr sect : Nat) (hle : count ≤ size)
    (h : sect * 512 + (size - count) < 2 ^ 41) (buffer : ByteMap) (s : IdeState) :
    ∃ io, (do
        readSectors E ((size - count) / SECTORSIZE) (ptr + count) sect
        if count + (size - count) / SECTORSIZE * SECTORSIZE = size then pure ()
        else do
          let buffer ← readsect E buffer 0 (u32 (sect + (size - count) / SECTORSIZE))
          Prog.modify fun s => { s with
            mem := copy s.mem (ptr + (count + (size - count) / SECTORSIZE * SECTORSIZE)) buffer 0
              (size - (count + (size - count) / SECTORSIZE * SECTORSIZE)) } : IdeM Unit) s
      = (.ok (), { s with
          mem := copy s.mem (ptr + count) s.disk (sect * 512) (size - count), io := io }) := by
  obtain ⟨rest, rfl⟩ := Nat.exists_eq_add_of_le hle
  rw [Nat.add_sub_cancel_left] at h ⊢
  have hn : sect + rest / 512 < 2 ^ 32 := by omega
  have hu : u32 (sect + rest / 512) = sect + rest / 512 := Nat.mod_eq_of_lt hn
  have hrun := readSectors_run hE (rest / SECTORSIZE) (ptr + count) sect s hn
  rw [bind_of_ok hrun]
  by_cases hend : count + rest / SECTORSIZE * SECTORSIZE = count + rest
  · rw [if_pos hend, show rest / SECTORSIZE * 512 = rest from Nat.add_left_cancel hend]
    exact ⟨s.io + rest / SECTORSIZE, rfl⟩
  · rw [if_neg hend, bind_of_ok (readsect_run hE _ _ _ _)]
    refine ⟨s.io + rest / SECTORSIZE + 1, ?_⟩
    have hsplit : rest / SECTORSIZE * SECTORSIZE + rest % 512 = rest := Nat.div_add_mod' rest 512
    have hleft : count + rest - (count + rest / SECTORSIZE * SECTORSIZE) = rest % 512 := by omega
    rw [hleft, show u32 (sect + rest / SECTORSIZE) = sect + rest / SECTORSIZE from hu]
    show (Except.ok (), _) = _
    simp only
    rw [copy_through (by omega), Nat.add_zero, Nat.add_mul,
      ← Nat.add_assoc ptr, show rest / SECTORSIZE * SECTORSIZE = rest / SECTORSIZE * 512 from rfl,
      copy_append, show rest / SECTORSIZE * 512 + rest % 512 = rest from hsplit]

/-- `readdisk` is one copy from the disk. -/
theorem readdisk_run (ptr : Nat) (h : start + size < DISKSIZE_MAX) (s : IdeState) :
    ∃ io, readdisk E ptr start size s
      = (.ok (), { s with mem := copy s.mem ptr s.disk start size, io := io }) := by
  unfold readdisk
  by_cases h0 : size = 0
  · rw [if_pos h0, h0, copy_zero]
    exact ⟨s.io, rfl⟩
  have hmax : ¬ (DISKSIZE_MAX ≤ start ∨ DISKSIZE_MAX ≤ size
      ∨ DISKSIZE_MAX ≤ u64 (start + size)) := by
    unfold DISKSIZE_MAX SECTORSIZE u64 at *
    omega
  rw [if_neg h0, if_neg hmax, u32_sector h]
  rw [bind_of_ok (readsect_run hE _ _ _ _), bind_of_ok (x := Prog.modify _) rfl]
  have hfirst : start % SECTORSIZE + min (SECTORSIZE - start % SECTORSIZE) size ≤ 512 := by
    unfold SECTORSIZE at *
    omega
  rw [copy_through hfirst, sector_add_offset]
  have hle : min (SECTORSIZE - start % SECTORSIZE) size ≤ size := Nat.min_le_right _ _
  have hnext : min (SECTORSIZE - start % SECTORSIZE) size = size
      ∨ u32 (start / SECTORSIZE + 1) * 512
        = start + min (SECTORSIZE - start % SECTORSIZE) size := by
    unfold DISKSIZE_MAX SECTORSIZE u32 at *
    omega
  generalize min (SECTORSIZE - start % SECTORSIZE) size = count at hle hnext ⊢
  have hsect : u32 (start / SECTORSIZE + 1) < 2 ^ 32 := u32_lt _
  generalize u32 (start / SECTORSIZE + 1) = sect at hnext hsect ⊢
  obtain ⟨io, hrest⟩ := readRest_run hE ptr sect hle
    (by unfold DISKSIZE_MAX SECTORSIZE at h; omega)
    (copy E.stack 0 s.disk (start / SECTORSIZE * 512) 512)
    { s with mem := copy s.mem ptr s.disk start count, io := s.io + 1 }
  refine ⟨io, hrest.trans ?_⟩
  rcases hnext with rfl | hnext
  · rw [Nat.sub_self, copy_zero]
  · simp only [hnext, copy_append, Nat.add_sub_cancel' hle]

end Ranges

-- ==== the file system

/-- The part of the disk the file system sees. -/
def IdeState.volume (s : IdeState) : ByteMap := fun a => s.disk (a + FILESYSTEM_DISK_OFFSET)

theorem volume_copy : IdeState.volume { s with
      disk := copy s.disk (a + FILESYSTEM_DISK_OFFSET) src b n, io := io }
      = copy s.volume a src b n := by
  funext x
  unfold IdeState.volume copy
  simp only [Nat.add_sub_add_right, Nat.add_le_add_iff_right]
  by_cases h : a ≤ x ∧ x < a + n
  · rw [if_pos h, if_pos (by omega)]
  · rw [if_neg h, if_neg (by omega)]

theorem asEio_ok {x : IdeM Unit} {s' : IdeState} (h : x s = (.ok (), s')) :
    asEio x s = (.ok (), s') := by
  unfold asEio
  rw [h]

section Volume

variable {F : Fs.FsEnv} (hF : F.Reliable) {ptr : Nat}
  (h : start + FILESYSTEM_DISK_OFFSET + size < DISKSIZE_MAX) {w : Fs.FsWorld}
  (hw : w.disk = s.volume)
include hE hF h hw

/-- `fsdw` on a disk that works is `fs_write_disk` of a buffer. -/
theorem fsWriteDisk_fsdw (hsrc : ∀ i < size, src i = s.mem (ptr + i)) :
    ∃ s' w', fsWriteDisk E ptr start size s = (.ok (), s')
      ∧ Fs.fsdw F src start size w = (.ok (), w') ∧ w'.disk = s'.volume := by
  have hu : u64 (start + FILESYSTEM_DISK_OFFSET) = start + FILESYSTEM_DISK_OFFSET :=
    u64_of_lt (by unfold DISKSIZE_MAX SECTORSIZE at h; omega)
  have hu' : u64 start = start := u64_of_lt (by unfold DISKSIZE_MAX SECTORSIZE at h; omega)
  obtain ⟨io, hrun⟩ := writedisk_run hE ptr h s
  rw [← hu] at hrun
  refine ⟨_, _, asEio_ok hrun, Fs.fsdw_reliable hF src start size w, ?_⟩
  rw [hu, volume_copy, hw, hu']
  exact copy_congr fun i hi => by rw [Nat.zero_add, hsrc i hi]

/-- `fsdr` returns what `fs_read_disk` puts into a buffer. -/
theorem fsReadDisk_fsdr :
    ∃ s' bytes w', fsReadDisk E ptr start size s = (.ok (), s')
      ∧ Fs.fsdr F start size w = (.ok bytes, w') ∧ w'.disk = s'.volume
      ∧ ∀ i < size, s'.mem (ptr + i) = bytes i := by
  have hu : u64 (start + FILESYSTEM_DISK_OFFSET) = start + FILESYSTEM_DISK_OFFSET :=
    u64_of_lt (by unfold DISKSIZE_MAX SECTORSIZE at h; omega)
  have hu' : u64 start = start := u64_of_lt (by unfold DISKSIZE_MAX SECTORSIZE at h; omega)
  obtain ⟨io, hrun⟩ := readdisk_run hE ptr h s
  rw [← hu] at hrun
  refine ⟨_, _, _, asEio_ok hrun, Fs.fsdr_reliable hF start size w, hw, fun i hi => ?_⟩
  simp only [hu]
  rw [slice_of_lt hi, hu', hw, copy_of_mem (by omega), Nat.add_sub_cancel_left,
    IdeState.volume, Nat.add_right_comm]

end Volume

-- ==== the theorem

/-- One `writedisk`, with the memory it finds. -/
structure DiskWrite where
  mem : ByteMap
  ptr : Nat
  start : Nat
  size : Nat

/-- Position `a` of the disk is in the range. -/
def DiskWrite.Covers (w : DiskWrite) (a : Nat) : Prop := w.start ≤ a ∧ a < w.start + w.size

instance (w : DiskWrite) (a : Nat) : Decidable (w.Covers a) := inferInstanceAs (Decidable (_ ∧ _))

/-- One write after the other. -/
def writeAll (E : IdeEnv) : List DiskWrite → IdeM Unit
  | [] => pure ()
  | w :: ws => do
      Prog.modify fun s => { s with mem := w.mem }
      writedisk E w.ptr w.start w.size
      writeAll E ws

/-- The byte the last of the writes that reach position `a` has put
there. -/
def lastWritten (disk : ByteMap) (ws : List DiskWrite) (a : Nat) : UInt8 :=
  match ws.reverse.find? fun w => w.Covers a with
  | some w => w.mem (w.ptr + (a - w.start))
  | none => disk a

theorem lastWritten_cons (disk : ByteMap) (w : DiskWrite) (ws : List DiskWrite) (a : Nat) :
    lastWritten disk (w :: ws) a
      = lastWritten (copy disk w.start w.mem w.ptr w.size) ws a := by
  unfold lastWritten
  rw [List.reverse_cons, List.find?_append]
  cases ws.reverse.find? fun w => w.Covers a with
  | some v => rfl
  | none =>
    by_cases hc : w.Covers a
    · simp [hc, copy_of_mem hc]
    · simp [hc, copy_of_not_mem hc]

theorem writeAll_run (hE : E.Reliable) (ws : List DiskWrite) :
    ∀ s, (∀ w ∈ ws, w.start + w.size < DISKSIZE_MAX) →
      ∃ t, writeAll E ws s = (.ok (), t) ∧ t.disk = lastWritten s.disk ws := by
  induction ws with
  | nil => exact fun s _ => ⟨s, rfl, rfl⟩
  | cons w ws ih =>
    intro s h
    obtain ⟨io, hrun⟩ := writedisk_run hE w.ptr (h w (.head _)) { s with mem := w.mem }
    obtain ⟨t, hall, hdisk⟩ := ih _ fun v hv => h v (.tail w hv)
    refine ⟨t, (bind_of_ok rfl).trans
      ((bind_of_ok hrun).trans hall), hdisk.trans ?_⟩
    exact funext fun a => (lastWritten_cons s.disk w ws a).symm

/-- `writedisk` and `readdisk` transfer the bytes of their range and no
others, and a read delivers at each position what the last write there
has left. -/
theorem byte_range_io (hE : E.Reliable) (s : IdeState) (ptr : Nat) {start size : Nat}
    (h : start + size < DISKSIZE_MAX) :
    (∃ s', writedisk E ptr start size s = (.ok (), s') ∧ s'.mem = s.mem
        ∧ (∀ i < size, s'.disk (start + i) = s.mem (ptr + i))
        ∧ ∀ a, a < start ∨ start + size ≤ a → s'.disk a = s.disk a)
      ∧ (∃ s', readdisk E ptr start size s = (.ok (), s') ∧ s'.disk = s.disk
        ∧ (∀ i < size, s'.mem (ptr + i) = s.disk (start + i))
        ∧ ∀ a, a < ptr ∨ ptr + size ≤ a → s'.mem a = s.mem a)
      ∧ ∀ ws : List DiskWrite, (∀ w ∈ ws, w.start + w.size < DISKSIZE_MAX) →
        ∃ t s', writeAll E ws s = (.ok (), t) ∧ readdisk E ptr start size t = (.ok (), s')
          ∧ ∀ i < size, s'.mem (ptr + i) = lastWritten s.disk ws (start + i) := by
  have hin : ∀ (m d : ByteMap) a b, ∀ i < size, copy m a d b size (a + i) = d (b + i) := by
    intro m d a b i hi
    rw [copy_of_mem (by omega), Nat.add_sub_cancel_left]
  have hout : ∀ (m d : ByteMap) a b x, x < a ∨ a + size ≤ x → copy m a d b size x = m x :=
    fun m d a b x hx => copy_of_not_mem (by omega)
  refine ⟨?_, ?_, fun ws hws => ?_⟩
  · obtain ⟨io, hrun⟩ := writedisk_run hE ptr h s
    exact ⟨_, hrun, rfl, hin _ _ _ _, hout _ _ _ _⟩
  · obtain ⟨io, hrun⟩ := readdisk_run hE ptr h s
    exact ⟨_, hrun, rfl, hin _ _ _ _, hout _ _ _ _⟩
  · obtain ⟨t, hall, hdisk⟩ := writeAll_run hE ws s hws
    obtain ⟨io, hrun⟩ := readdisk_run hE ptr h t
    refine ⟨t, _, hall, hrun, fun i hi => ?_⟩
    rw [← hdisk]
    exact hin _ _ _ _ i hi

/-- A write from the middle of one sector to the middle of the third. -/
theorem byte_range_io_three_sectors :
    let E : IdeEnv := ⟨fun _ => none, zero⟩
    let s : IdeState := ⟨zero, fun i => UInt8.ofNat i, 0⟩
    ∃ s', writedisk E 7 510 600 s = (.ok (), s') ∧ s'.disk 511 = 8 ∧ s'.disk 509 = 0
      ∧ s'.disk 1110 = 0 := by
  intro E s
  obtain ⟨⟨s', hrun, -, hin, hout⟩, -⟩ :=
    byte_range_io (E := E) (fun _ => rfl) s 7 (show 510 + 600 < DISKSIZE_MAX by decide)
  exact ⟨s', hrun, hin 1 (by decide), hout 509 (.inl (by decide)),
    hout 1110 (.inr (by decide))⟩

-- ==== sector numbers

/-- What is sent to the ports 0x1F3 to 0x1F6. -/
def addressBytes (out : List (Nat × UInt8)) : List UInt8 :=
  (out.filter fun p => 0x1F3 ≤ p.1 ∧ p.1 ≤ 0x1F6).map Prod.snd

/-- The last of the four bytes has the mode in its upper three bits. -/
theorem lastByte_eq (sect : UInt32) :
    ((sect >>> 24) ||| 0xE0).toUInt8.toNat = 0xE0 + sect.toNat / 2 ^ 24 % 32 := by
  have hmode : ∀ x < 256, x ||| 0xE0 = 0xE0 + x % 32 := by decide +kernel
  have hlt := sect.toNat_lt
  have hshift : (sect >>> 24).toNat = sect.toNat / 2 ^ 24 := by
    rw [UInt32.toNat_shiftRight]
    exact Nat.shiftRight_eq_div_pow _ _
  rw [UInt32.toNat_toUInt8, UInt32.toNat_or, hshift]
  have h := hmode (sect.toNat / 2 ^ 24) (by omega)
  rw [show (0xE0 : UInt32).toNat = 0xE0 from rfl, h]
  omega

/-- The four bytes tell the low 29 bits of the number. -/
theorem address_eq_iff (command command' : UInt8) (a b : UInt32) :
    addressBytes (sectorCommand command a) = addressBytes (sectorCommand command' b)
      ↔ a.toNat % 2 ^ 29 = b.toNat % 2 ^ 29 := by
  have hbytes : ∀ (command : UInt8) (sect : UInt32), addressBytes (sectorCommand command sect)
      = [sect.toUInt8, (sect >>> 8).toUInt8, (sect >>> 16).toUInt8,
          ((sect >>> 24) ||| 0xE0).toUInt8] := fun _ _ => rfl
  have hlow : ∀ sect : UInt32, sect.toUInt8.toNat = sect.toNat % 256
      ∧ (sect >>> 8).toUInt8.toNat = sect.toNat / 2 ^ 8 % 256
      ∧ (sect >>> 16).toUInt8.toNat = sect.toNat / 2 ^ 16 % 256 := by
    intro sect
    rw [UInt32.toNat_toUInt8, UInt32.toNat_toUInt8, UInt32.toNat_toUInt8,
      UInt32.toNat_shiftRight, UInt32.toNat_shiftRight, Nat.shiftRight_eq_div_pow,
      Nat.shiftRight_eq_div_pow]
    exact ⟨rfl, rfl, rfl⟩
  obtain ⟨a1, a2, a3⟩ := hlow a
  obtain ⟨b1, b2, b3⟩ := hlow b
  rw [hbytes, hbytes]
  simp only [List.cons.injEq, and_true, ← UInt8.toNat_inj]
  rw [a1, a2, a3, b1, b2, b3, lastByte_eq, lastByte_eq]
  omega

/-- Two requests for sectors send the same address, whichever routine
makes them, exactly if the sector numbers agree in their low 29 bits. -/
theorem sector_address_iff (a b : UInt32) :
    (addressBytes (readsectPorts a) = addressBytes (readsectPorts b)
        ↔ a.toNat % 2 ^ 29 = b.toNat % 2 ^ 29)
      ∧ (addressBytes (writesectPorts a) = addressBytes (writesectPorts b)
        ↔ a.toNat % 2 ^ 29 = b.toNat % 2 ^ 29)
      ∧ (addressBytes (readsectPorts a) = addressBytes (writesectPorts b)
        ↔ a.toNat % 2 ^ 29 = b.toNat % 2 ^ 29) :=
  ⟨address_eq_iff _ _ a b, address_eq_iff _ _ a b, address_eq_iff _ _ a b⟩

/-- Sectors 0 and 2^29, which `readdisk` and `writedisk` both accept, have
the same address. -/
theorem sectors_alias :
    addressBytes (readsectPorts 0) = addressBytes (readsectPorts 0x20000000)
      ∧ addressBytes (writesectPorts 0) = addressBytes (writesectPorts 0x20000000)
      ∧ ∀ (E : IdeEnv) (ptr : Nat) (s : IdeState), E.Reliable →
        ∀ sect ∈ [(0 : UInt32), 0x20000000],
          (readdisk E ptr (sect.toNat * SECTORSIZE) SECTORSIZE s).1.toOption = some ()
            ∧ (writedisk E ptr (sect.toNat * SECTORSIZE) SECTORSIZE s).1.toOption = some () := by
  refine ⟨by decide, by decide, fun E ptr s hE sect hsect => ?_⟩
  have hmax : sect.toNat * SECTORSIZE + SECTORSIZE < DISKSIZE_MAX := by
    rcases List.mem_cons.mp hsect with rfl | hsect
    · decide
    · rw [List.mem_singleton.mp hsect]
      decide
  obtain ⟨io, hread⟩ := readdisk_run hE ptr hmax s
  obtain ⟨io', hwrite⟩ := writedisk_run hE ptr hmax s
  rw [hread, hwrite]
  exact ⟨rfl, rfl⟩

end RojocOS.Kernel
