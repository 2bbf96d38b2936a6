/-
The block loop of `fs_read`: what it delivers, and how often it turns.

# Delivery

On a file whose block numbers do not wrap, a request for at least one byte
delivers the decrypted slice and writes nowhere behind it
(`fsRead_delivers`).

# Turns

Every turn makes one disk access, the one of `decrypt_block`, and nothing
else in the loop makes any; so the accesses of a run count its turns.
`end_block` is `(offset + size - 1) / BLOCK_SIZE` in 64-bit arithmetic,
cut to 32 bits. For a clipped request that is not empty at offset 0 it is
the last block of the request. For the empty request at offset 0 of a file
with contents the subtraction wraps, `end_block` is `2^32 - 1`, and the
test `block_idx <= end_block` is true of every `uint32_t`
(`fsRead_turns`).
-/
import RojocOS.Fs.Proofs.ReadBack

namespace RojocOS.Fs

open ByteMap Prog

variable {E : FsEnv} {d : FsDescriptor} {idx ino offset size : Nat} {w : FsWorld}

-- ==== the caller's buffer

/-- Accesses that write inside the first `n` bytes of the buffer. -/
def WritesBelow (n : Nat) (t : List Access) : Prop :=
  ∀ a ∈ t, a.write = true ∧ a.off + a.len ≤ n

/-- One turn: a disk access, and a copy of as many bytes as are left at
most. -/
theorem readLoop_turn (e : ByteMap) (size offset : Nat)
    (hle : idx ≤ u32 (u64 (offset + size + (2 ^ 64 - 1)) / 4096)) (fuel done : Nat)
    (w : FsWorld) :
    (∃ n w', n ≤ u64 (size + 2 ^ 64 - done) ∧ w'.io = w.io + 1
        ∧ w'.trace = ⟨true, done, n⟩ :: w.trace
        ∧ readLoop E d e size offset (fuel + 1) idx done w
          = readLoop E d e size offset fuel (u32 (idx + 1)) (done + n) w')
      ∨ ¬ E.Reliable ∧ readLoop E d e size offset (fuel + 1) idx done w
          = (.error (.err (-eio)), { w with io := w.io + 1 }) := by
  generalize hbo : (if idx = u32 (offset / 4096) then offset % 4096 else 0) = bo
  generalize hn : min (4096 - bo) (u64 (size + 2 ^ 64 - done)) = n
  have hbody : readLoop E d e size offset (fuel + 1) idx done = (do
      let v ← decryptBlock E d (Entry.startBlock e + idx)
        (aesInitCtxIv E (Entry.cipherKey e) ((Entry.cipherIv e + idx) % 2 ^ 128))
      copyToCaller done v.2 bo n
      readLoop E d e size offset fuel (u32 (idx + 1)) (done + n)) := by
    rw [readLoop, if_pos hle, ← hn, ← hbo]
  rw [hbody]
  unfold decryptBlock
  rcases fsdr_outcome
    (d.dataOffset + u32 (u32 (Entry.startBlock e + idx) * 4096)) 4096 w with h | ⟨hE, h⟩
  · have hle' : n ≤ u64 (size + 2 ^ 64 - done) := hn ▸ Nat.min_le_right _ _
    rw [Prog.bind_assoc, bind_of_ok h, Prog.pure_bind]
    exact .inl ⟨n, _, hle', rfl, rfl, bind_of_ok rfl⟩
  · exact .inr ⟨hE, bind_of_error (bind_of_error h)⟩

/-- Past `end_block` the loop is over. -/
theorem readLoop_end (e : ByteMap)
    (hlt : ¬ idx ≤ u32 (u64 (offset + size + (2 ^ 64 - 1)) / 4096)) (fuel done : Nat)
    (w : FsWorld) : readLoop E d e size offset (fuel + 1) idx done w = (.ok done, w) := by
  unfold readLoop
  rw [if_neg hlt]
  rfl

/-- The loop copies to the bytes of the request, in order. -/
theorem readLoop_trace (e : ByteMap) (offset : Nat) (hs : size < 2 ^ 64) :
    ∀ fuel idx done w, done ≤ size →
      ∃ t, (readLoop E d e size offset fuel idx done w).2.trace = t ++ w.trace
        ∧ WritesBelow size t := by
  have hnil : WritesBelow size [] := fun a ha => absurd ha List.not_mem_nil
  intro fuel
  induction fuel with
  | zero => exact fun idx done w _ => ⟨[], rfl, hnil⟩
  | succ fuel ih =>
    intro idx done w hdone
    by_cases hle : idx ≤ u32 (u64 (offset + size + (2 ^ 64 - 1)) / 4096)
    case neg =>
      rw [readLoop_end e hle]
      exact ⟨[], rfl, hnil⟩
    case pos =>
      rcases readLoop_turn e size offset hle fuel done w
        with ⟨n, w', hn, -, htr, hrun⟩ | ⟨-, hrun⟩
      · have hleft : u64 (size + 2 ^ 64 - done) = size - done := by
          unfold u64
          omega
        rw [hleft] at hn
        obtain ⟨t, ht, hbelow⟩ := ih (u32 (idx + 1)) (done + n) w' (by omega)
        refine ⟨t ++ [⟨true, done, n⟩], ?_, fun a ha => ?_⟩
        · rw [hrun, ht, htr, List.append_assoc]
          rfl
        · rcases List.mem_append.mp ha with ha | ha
          · exact hbelow a ha
          · rw [List.mem_singleton.mp ha]
            exact ⟨rfl, by show done + n ≤ size; omega⟩
      · rw [hrun]
        exact ⟨[], rfl, hnil⟩

-- ==== delivery

/-- `fs_read` once it has read the entry. -/
theorem fsRead_loop (fuel : Nat)
    (hmax : ¬ FS_IO_MAX_SIZE < size) (hoff : offset < Entry.size (entryAt w.disk ino))
    (hsize : Entry.size (entryAt w.disk ino) ≤ 2 ^ 32)
    (hread : fsdr E (entryAddr ino) 304 w
      = (.ok (entryAt w.disk ino), { w with io := w.io + 1 })) :
    fsRead E d fuel ino size offset w
      = readLoop E d (entryAt w.disk ino)
          (min size (Entry.size (entryAt w.disk ino) - offset)) offset fuel (offset / 4096) 0
          { w with io := w.io + 1 } := by
  have hu : u64 (size + offset) = size + offset := by
    unfold u64 FS_IO_MAX_SIZE at *
    omega
  have hclip : (if Entry.size (entryAt w.disk ino) < u64 (size + offset)
      then Entry.size (entryAt w.disk ino) - offset else size)
        = min size (Entry.size (entryAt w.disk ino) - offset) := by
    rw [hu]
    split <;> omega
  have hstart : u32 (offset / 4096) = offset / 4096 := Nat.mod_eq_of_lt (by omega)
  unfold fsRead
  rw [if_neg hmax, bind_of_ok hread, if_neg (Nat.not_le.mpr hoff), hclip, hstart]

/-- `fs_read` returns 0 at or behind the end of the file. Before it, the
`n` bytes that are asked for and there arrive at the front of the buffer,
decrypted, and no access to the buffer goes behind them. -/
theorem fsRead_delivers (hE : E.Reliable) (w : FsWorld) {ino size offset fuel : Nat}
    (hino : ino < 2 ^ 32)
    (hblocks : Entry.startBlock (entryAt w.disk ino)
      + (Entry.size (entryAt w.disk ino) + 4095) / 4096 ≤ 2 ^ 20)
    (h1 : 1 ≤ size) (hmax : size ≤ FS_IO_MAX_SIZE)
    (hfuel : (size + 4095) / 4096 + 2 ≤ fuel) :
    (Entry.size (entryAt w.disk ino) ≤ offset →
      fsRead E fsdesc fuel ino size offset w = (.ok 0, { w with io := w.io + 1 }))
    ∧ (offset < Entry.size (entryAt w.disk ino) →
        ∀ n, n = min size (Entry.size (entryAt w.disk ino) - offset) →
        ∃ io t, fsRead E fsdesc fuel ino size offset w
            = (.ok n, { w with
                io := io, trace := t ++ w.trace
                buf := copy w.buf 0 (plain E w.disk (entryAt w.disk ino)) offset n })
          ∧ WritesBelow n t) := by
  have hle : ¬ FS_IO_MAX_SIZE < size := Nat.not_lt.mpr hmax
  constructor
  · intro hend
    unfold fsRead
    rw [if_neg hle, bind_of_ok (fsdr_entry hE hino w), if_pos hend]
    rfl
  · intro hoff n hn
    have hblocks' : (offset + n - 1) / 4096 - offset / 4096 + 2 ≤ fuel := by omega
    obtain ⟨io, t', hread⟩ := fsRead_plain hE hino hblocks h1 hmax hoff hn hblocks'
    have hn64 : n < 2 ^ 64 := by
      unfold FS_IO_MAX_SIZE at hmax
      omega
    obtain ⟨t, ht, hbelow⟩ := readLoop_trace (E := E) (d := fsdesc) (entryAt w.disk ino)
      offset hn64 fuel (offset / 4096) 0 { w with io := w.io + 1 } (Nat.zero_le _)
    refine ⟨io, t, ?_, hbelow⟩
    have hsame : t' = t ++ w.trace := by
      have hloop := fsRead_loop (d := fsdesc) fuel hle hoff (by omega) (fsdr_entry hE hino w)
      rw [hread, ← hn] at hloop
      exact (congrArg (fun r => r.2.trace) hloop).trans ht
    rw [hread, hsame]

/-- The byte of a one-byte file. -/
theorem fsRead_delivers_firstByte :
    ∃ io t, fsRead plainEnv fsdesc 3 1 5 0 firstByte
        = (.ok 1, { firstByte with
            io := io, trace := t ++ firstByte.trace
            buf := copy firstByte.buf 0
              (plain plainEnv firstByte.disk (entryAt firstByte.disk 1)) 0 1 })
      ∧ WritesBelow 1 t :=
  (fsRead_delivers plainEnv_reliable firstByte (by decide) (by decide +kernel)
    (show 1 ≤ 5 by decide) (by decide) (by decide)).2 (by decide +kernel) 1 (by decide +kernel)

-- ==== turns

section Turns

variable {e : ByteMap} {size offset last : Nat}

/-- As long as `end_block` is not the largest `uint32_t`, the loop turns
once for every block up to it. -/
theorem readLoop_turns (hlast : u32 (u64 (offset + size + (2 ^ 64 - 1)) / 4096) = last)
    (hsmall : last + 1 < 2 ^ 32) :
    ∀ fuel idx done w, idx ≤ last + 1 →
      (readLoop E d e size offset fuel idx done w).2.io ≤ w.io + (last + 1 - idx)
        ∧ (last + 1 - idx < fuel →
            (readLoop E d e size offset fuel idx done w).1 ≠ .error .hang) := by
  intro fuel
  induction fuel with
  | zero => exact fun idx done w _ => ⟨Nat.le_add_right _ _, fun h => absurd h (Nat.not_lt_zero _)⟩
  | succ fuel ih =>
    intro idx done w hidx
    by_cases hle : idx ≤ last
    case neg =>
      rw [readLoop_end e (by omega)]
      exact ⟨Nat.le_add_right _ _, fun _ h => by cases h⟩
    case pos =>
      rcases readLoop_turn e size offset (hlast.symm ▸ hle) fuel done w
        with ⟨n, w', -, hio, -, hrun⟩ | ⟨-, hrun⟩
      · have hnext : u32 (idx + 1) = idx + 1 := Nat.mod_eq_of_lt (by omega)
        obtain ⟨hle', hhang⟩ := ih (idx + 1) (done + n) w' (by omega)
        rw [hrun, hnext]
        exact ⟨by omega, fun hf => hhang (by omega)⟩
      · rw [hrun]
        refine ⟨?_, fun _ h => by cases h⟩
        show w.io + 1 ≤ _
        omega

/-- Otherwise it has no last turn. -/
theorem readLoop_forever (hE : E.Reliable)
    (hlast : u32 (u64 (offset + size + (2 ^ 64 - 1)) / 4096) = 2 ^ 32 - 1) :
    ∀ fuel idx done w, idx < 2 ^ 32 →
      (readLoop E d e size offset fuel idx done w).2.io = w.io + fuel
        ∧ (readLoop E d e size offset fuel idx done w).1 = .error .hang := by
  intro fuel
  induction fuel with
  | zero => exact fun idx done w _ => ⟨rfl, rfl⟩
  | succ fuel ih =>
    intro idx done w hidx
    have hle : idx ≤ u32 (u64 (offset + size + (2 ^ 64 - 1)) / 4096) := by
      rw [hlast]
      omega
    rcases readLoop_turn e size offset hle fuel done w
      with ⟨n, w', -, hio, -, hrun⟩ | ⟨hno, -⟩
    · obtain ⟨hio', hhang⟩ := ih (u32 (idx + 1)) (done + n) w' (u32_lt _)
      rw [hrun]
      exact ⟨by omega, hhang⟩
    · exact absurd hE hno

/-- The turns of an empty request deliver nothing. -/
theorem readLoop_empty (hE : E.Reliable)
    (hlast : u32 (u64 (offset + 0 + (2 ^ 64 - 1)) / 4096) = last)
    (hsmall : last + 1 < 2 ^ 32) :
    ∀ fuel idx w, idx ≤ last + 1 → last + 1 - idx < fuel →
      (readLoop E d e 0 offset fuel idx 0 w).1 = .ok 0 := by
  intro fuel
  induction fuel with
  | zero => exact fun idx w _ h => absurd h (Nat.not_lt_zero _)
  | succ fuel ih =>
    intro idx w hidx hfuel
    by_cases hle : idx ≤ last
    case neg => rw [readLoop_end e (by omega)]
    case pos =>
      have hle' : idx ≤ u32 (u64 (offset + 0 + (2 ^ 64 - 1)) / 4096) := by
        rw [hlast]
        exact hle
      rcases readLoop_turn e 0 offset hle' fuel 0 w
        with ⟨n, w', hn, -, -, hrun⟩ | ⟨hno, -⟩
      · have hnext : u32 (idx + 1) = idx + 1 := Nat.mod_eq_of_lt (by omega)
        have hleft : u64 (0 + 2 ^ 64 - 0) = 0 := Nat.mod_self _
        rw [hleft] at hn
        obtain rfl : n = 0 := Nat.le_zero.mp hn
        rw [hrun, hnext]
        exact ih (idx + 1) w' (by omega) (by omega)
      · exact absurd hE hno

/-- The last block of a clipped request that is not empty at 0. -/
theorem lastBlock (offset size : Nat) (hpos : 1 ≤ offset + size)
    (hsmall : offset + size < 2 ^ 32) :
    u32 (u64 (offset + size + (2 ^ 64 - 1)) / 4096) = (offset + size - 1) / 4096 := by
  unfold u64 u32
  omega

/-- Of an empty request at 0 it is the largest `uint32_t`. -/
theorem u32_wrapped (n : Nat) : u32
    (u64 (0 + min 0 n + (2 ^ 64 - 1)) / 4096) = 2 ^ 32 - 1 := by
  rw [Nat.zero_min]
  decide

end Turns

/-- The empty request at the start of a file with contents. -/
def EmptyAtStart (w : FsWorld) (ino size offset : Nat) : Prop :=
  size = 0 ∧ offset = 0 ∧ 0 < Entry.size (entryAt w.disk ino)

/-- The loop turns at most once more than the request has blocks, and
comes to its end. -/
def FewTurns (E : FsEnv) (d : FsDescriptor) (w : FsWorld) (ino size offset : Nat) : Prop :=
  ∀ fuel, (fsRead E d fuel ino size offset w).2.io ≤ w.io + 1 + ((size + 4095) / 4096 + 1)
    ∧ ((size + 4095) / 4096 + 2 ≤ fuel →
        (fsRead E d fuel ino size offset w).1 ≠ .error .hang)

/-- The loop ends in time unless the request is empty at the start of a
file with contents; then, on a disk that works, it does not end. -/
theorem fsRead_turns (E : FsEnv) (d : FsDescriptor) (w : FsWorld) {ino size offset : Nat}
    (hino : ino < 2 ^ 32) (hsize : Entry.size (entryAt w.disk ino) < 2 ^ 32) :
    (¬ EmptyAtStart w ino size offset → FewTurns E d w ino size offset)
    ∧ (E.Reliable →
        (FewTurns E d w ino size offset
            ∧ (size = 0 → ∀ fuel, 2 ≤ fuel →
                (fsRead E d fuel ino size offset w).1 = .ok 0)
          ↔ ¬ EmptyAtStart w ino size offset)) := by
  have haddr := u64_entryAddr hino
  have hfew : ¬ EmptyAtStart w ino size offset → FewTurns E d w ino size offset := by
    intro hno fuel
    by_cases hmax : FS_IO_MAX_SIZE < size
    case pos =>
      unfold fsRead
      rw [if_pos hmax]
      exact ⟨Nat.le_add_right_of_le (Nat.le_add_right _ _), fun _ h => by cases h⟩
    case neg =>
      rcases fsdr_outcome (E := E) (entryAddr ino) 304 w with hread | ⟨-, hread⟩
      case inr =>
        unfold fsRead
        rw [if_neg hmax, bind_of_error hread]
        exact ⟨Nat.le_add_right _ _, fun _ h => by cases h⟩
      case inl =>
        rw [haddr] at hread
        have hread : fsdr E (entryAddr ino) 304 w
          = (.ok (entryAt w.disk ino), { w with io := w.io + 1 }) := hread
        by_cases hoff : Entry.size (entryAt w.disk ino) ≤ offset
        · unfold fsRead
          rw [if_neg hmax, bind_of_ok hread, if_pos hoff]
          exact ⟨Nat.le_add_right _ _, fun _ h => by cases h⟩
        · have hpos : ¬ (size = 0 ∧ offset = 0) := fun h => hno ⟨h.1, h.2, by omega⟩
          have hturns := readLoop_turns (E := E) (d := d) (e := entryAt w.disk ino)
            (lastBlock offset (min size (Entry.size (entryAt w.disk ino) - offset))
              (by omega) (by omega)) (by omega) fuel (offset / 4096) 0
            { w with io := w.io + 1 } (by omega)
          rw [fsRead_loop fuel hmax (by omega) (by omega) hread]
          refine ⟨Nat.le_trans hturns.1 (Nat.add_le_add_left ?_ _), fun hf => hturns.2 (by omega)⟩
          omega
  refine ⟨hfew, fun hE => ⟨fun ⟨hturns, _⟩ ⟨h0, h0', hpos⟩ => ?_, fun hno => ⟨hfew hno, ?_⟩⟩⟩
  · -- the wrapped `end_block`: two turns are one too many
    subst h0 h0'
    have hmax : ¬ FS_IO_MAX_SIZE < 0 := by decide
    have hloop := fsRead_loop (d := d) 2 hmax hpos (by omega) (fsdr_entry hE hino w)
    have hforever := readLoop_forever (d := d) (e := entryAt w.disk ino) hE
      (u32_wrapped (Entry.size (entryAt w.disk ino) - 0)) 2 (0 / 4096) 0
      { w with io := w.io + 1 } (by decide)
    have hio := (hturns 2).1
    rw [hloop, hforever.1] at hio
    have hio : w.io + 1 + 2 ≤ w.io + 1 + 1 := hio
    omega
  · rintro rfl fuel hfuel
    by_cases hoff : Entry.size (entryAt w.disk ino) ≤ offset
    · unfold fsRead
      rw [if_neg (by decide), bind_of_ok (fsdr_entry hE hino w), if_pos hoff]
      rfl
    · have hpos : offset ≠ 0 := fun h => hno ⟨rfl, h, by omega⟩
      rw [fsRead_loop fuel (by decide) (by omega) (by omega) (fsdr_entry hE hino w), Nat.zero_min]
      exact readLoop_empty hE (lastBlock offset 0 (by omega) (by omega))
        (by omega) fuel (offset / 4096) _ (by omega) (by omega)

/-- One byte of a one-byte file: at most two turns, here one. -/
theorem fsRead_turns_firstByte :
    FewTurns plainEnv fsdesc firstByte 1 1 0
      ∧ (fsRead plainEnv fsdesc 3 1 1 0 firstByte).1 ≠ .error .hang := by
  have hfew : FewTurns plainEnv fsdesc firstByte 1 1 0 :=
    (fsRead_turns plainEnv fsdesc firstByte (by decide) (by decide +kernel)).1
      fun h => absurd h.1 (by decide)
  exact ⟨hfew, (hfew 3).2 (by decide)⟩

/-- Reading nothing from the start of that file never returns, whatever
the fuel. -/
theorem empty_read_hangs :
    FsRun plainEnv (fun _ _ => True) (start plainEnv) firstByte
      ∧ Live firstByte 1
      ∧ Entry.size (entryAt firstByte.disk 1) = 1
      ∧ ∀ fuel, (fsRead plainEnv fsdesc fuel 1 0 0 firstByte).1 = .error .hang
          ∧ (fsRead plainEnv fsdesc fuel 1 0 0 firstByte).2.io = firstByte.io + 1 + fuel := by
  have hone : Entry.size (entryAt firstByte.disk 1) = 1 := by decide +kernel
  refine ⟨?_, ⟨by omega, by decide +kernel⟩, hone, fun fuel => ?_⟩
  · exact runAll_run plainEnv _ _
      ⟨trivial, by decide +kernel, trivial, by decide +kernel, trivial⟩
  · have hforever := readLoop_forever (d := fsdesc) (e := entryAt firstByte.disk 1)
      plainEnv_reliable (u32_wrapped (Entry.size (entryAt firstByte.disk 1) - 0)) fuel (0 / 4096) 0
      { firstByte with io := firstByte.io + 1 } (by decide)
    rw [fsRead_loop fuel (by decide) (by rw [hone]; decide) (by rw [hone]; decide)
      (fsdr_entry plainEnv_reliable (by decide) firstByte)]
    exact hforever.symm

end RojocOS.Fs
