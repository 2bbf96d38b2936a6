/-
How far `fs_write` reaches: the blocks it encrypts, the bytes it touches
at its caller, the bytes it changes on disk.

# Blocks

`new_block` is the `uint32_t` difference between the blocks of the file's
new end and the blocks it has. It is the length of the block loop, whatever
part of the file the request overwrites. With `f` the block the request
starts in and `n` the blocks it spans, the difference is that of numbers,
and the loop encrypts no more than the request has, exactly when the request
starts inside the blocks of the file and ends in its last block or behind
(`new_blocks_iff`).

# The caller

The buffer is read in two places: the tail of a partial block is taken from
it, up to the end of the block and not of the request, and every block of
the loop is handed to `encrypt_block`, which works in place. So the caller
is left alone by the calls that do not reach the loop and whose partial
block, if there is one, ends inside the request, and by no other
(`write_undisturbed_iff`). That the other calls leave a trace needs
something of the cipher: that it is a permutation of the blocks, as AES is,
so that the key stream of 256 blocks cannot be all zero.
-/
import RojocOS.Fs.Proofs.Faults
import RojocOS.Fs.Proofs.Relocation

namespace RojocOS.Fs

open ByteMap Digits Prog

variable {E : FsEnv} {d : FsDescriptor} {e : ByteMap} {size offset n x : Nat}
  {w w' : FsWorld}

-- ==== blocks

/-- `SIZE_TO_BLOCK` of the end of a request. -/
theorem sizeToBlock_end (x : Nat) : sizeToBlock (u64 x) = u32 ((x + 4095) / 4096) := by
  unfold sizeToBlock u64 u32
  omega

/-- The request starts inside the blocks of the file and ends in its last
block or behind it. At 16 TiB block numbers wrap; behind that the number
of the last block alone decides. -/
def EndsBehind (e : ByteMap) (size offset : Nat) : Prop :=
  (u32 (offset / 4096) + sizeToBlock (offset % 4096 + size) < 2 ^ 32
    ∧ u32 (offset / 4096) + (if offset % 4096 = 0 then 0 else 1) ≤ Entry.blockCount e
    ∧ Entry.blockCount e ≤ u32 (offset / 4096) + sizeToBlock (offset % 4096 + size))
  ∨ Entry.blockCount e + 2 ^ 32 ≤ u32 (offset / 4096) + sizeToBlock (offset % 4096 + size)

instance (e : ByteMap) (size offset : Nat) : Decidable (EndsBehind e size offset) :=
  inferInstanceAs (Decidable (_ ∨ _))

/-- The arithmetic of it. -/
theorem endsBehind_iff (hmax : size ≤ FS_IO_MAX_SIZE) :
    EndsBehind e size offset
      ↔ (newBlocks e size offset : Int)
            = sizeToBlock (u64 (offset + size)) - Entry.blockCount e
          ∧ requestBlocks offset (newBlocks e size offset)
            ≤ sizeToBlock (offset % 4096 + size) := by
  have hbc := blockCount_lt e
  have hn : sizeToBlock (offset % 4096 + size) = u32 ((offset % 4096 + size + 4095) / 4096) := by
    rw [← sizeToBlock_end, u64_of_lt (by unfold FS_IO_MAX_SIZE at hmax; omega)]
  unfold EndsBehind requestBlocks newBlocks subU32
  rw [sizeToBlock_end, hn]
  generalize Entry.blockCount e = bc at hbc
  unfold u32
  by_cases hp : offset % 4096 = 0
  · rw [if_pos hp, if_neg (not_not_intro hp)]
    omega
  · rw [if_neg hp, if_pos hp]
    omega

/-- `encrypt_block` is two disk accesses. -/
theorem encryptBlock_io (hE : E.Reliable) (index : Nat) (ctx : AesCtx) (buffer : ByteMap)
    (w : FsWorld) :
    ∃ disk, encryptBlock E d index ctx buffer w
      = (.ok (), { w with disk := disk, io := w.io + 2 }) := by
  unfold encryptBlock
  rw [bind_of_ok (fsdw_reliable hE _ _ _ w), fsdw_reliable hE]
  exact ⟨_, rfl⟩

theorem writeLoop_io (hE : E.Reliable) (index : Nat) :
    ∀ n i ctx w, ∃ w', writeLoop E d index n i ctx w = (.ok (), w') ∧ w'.io = w.io + 2 * n := by
  intro n
  induction n with
  | zero => exact fun i ctx w => ⟨w, rfl, rfl⟩
  | succ n ih =>
    intro i ctx w
    obtain ⟨disk, henc⟩ := encryptBlock_io hE (index + i) ctx
      (slice w.buf (i * 4096) 4096) { w with
        buf := (aesCtrXcryptBuffer E ctx w.buf (i * 4096) 4096).2
        trace := ⟨true, i * 4096, 4096⟩ :: ⟨false, i * 4096, 4096⟩ :: w.trace }
    have hstep : encryptCaller E d (index + i) ctx (i * 4096) w = _ :=
      ignoreErr_of_ok henc
    obtain ⟨w', hrun, hio⟩ := ih (i + 1) (nextCtx E ctx) _
    refine ⟨w', (bind_of_ok hstep).trans hrun, hio.trans ?_⟩
    show w.io + 2 + 2 * n = w.io + 2 * (n + 1)
    omega

/-- The accesses of the two stretches count the blocks they encrypt. -/
theorem encryptRequest_io (hE : E.Reliable) (e block : ByteMap) (offset total new : Nat)
    (w : FsWorld) :
    (encryptRequest E d e block offset total new w).2.io
      = w.io + 2 * requestBlocks offset new := by
  have hrest : ∀ ctx w, (writeRest E d e ctx offset total new w).2.io = w.io + 2 * new := by
    intro ctx w
    unfold writeRest
    by_cases h0 : new = 0
    · rw [if_neg (not_not_intro h0), h0]
      rfl
    · obtain ⟨w', hrun, hio⟩ := writeLoop_io hE
        (Entry.startBlock e + sizeToBlock offset) new 0 ctx w
      rw [if_pos h0, bind_of_ok hrun]
      exact hio
  unfold encryptRequest writePartial requestBlocks
  by_cases hp : offset % 4096 = 0
  · rw [if_neg (not_not_intro hp), if_neg (not_not_intro hp)]
    exact hrest _ w
  · obtain ⟨disk, henc⟩ := encryptBlock_io hE (Entry.startBlock e + offset / 4096)
      (aesInitCtxIv E (Entry.cipherKey e) ((Entry.cipherIv e + offset / 4096) % 2 ^ 128)) block w
    rw [if_pos hp, if_pos hp]
    rw [Prog.bind_assoc, bind_of_ok henc, Prog.pure_bind, hrest]
    show w.io + 2 + 2 * new = w.io + 2 * (new + 1)
    omega

/-- `new_block` is a difference of numbers, and the request encrypts at
most the blocks it spans, exactly when it starts inside the blocks of the
file and ends in the last of them or behind. `e'` is the entry the blocks
are encrypted for, which a relocation may have replaced. -/
theorem new_blocks_iff (hE : E.Reliable) (e e' block : ByteMap) (w : FsWorld)
    {size offset : Nat} (hmax : size ≤ FS_IO_MAX_SIZE) :
    ((newBlocks e size offset : Int) = sizeToBlock (u64 (offset + size)) - Entry.blockCount e
      ∧ (encryptRequest E fsdesc e' block offset (sizeToBlock (u64 (offset + size)))
            (newBlocks e size offset) w).2.io
          ≤ w.io + 2 * sizeToBlock (offset % 4096 + size))
    ↔ EndsBehind e size offset := by
  rw [endsBehind_iff hmax, encryptRequest_io hE]
  have hhalf : ∀ n m, w.io + 2 * n ≤ w.io + 2 * m ↔ n ≤ m := by omega
  rw [hhalf]

/-- A third block behind two: one new block, one block encrypted. -/
theorem new_blocks_third :
    newBlocks (entryAt twoBlocks.disk 1) 4096 8192 = 1
      ∧ (encryptRequest plainEnv fsdesc (entryAt twoBlocks.disk 1) zero 8192 3 1 twoBlocks).2.io
          ≤ twoBlocks.io + 2 * sizeToBlock (8192 % 4096 + 4096) := by
  have hnew : newBlocks (entryAt twoBlocks.disk 1) 4096 8192 = 1 := by decide +kernel
  have htotal : sizeToBlock (u64 (8192 + 4096)) = 3 := by decide
  have hmax : 4096 ≤ FS_IO_MAX_SIZE := by decide
  have hends : EndsBehind (entryAt twoBlocks.disk 1) 4096 8192 := by decide +kernel
  have h := ((new_blocks_iff plainEnv_reliable (entryAt twoBlocks.disk 1)
    (entryAt twoBlocks.disk 1) zero twoBlocks hmax).mpr hends).2
  rw [hnew, htotal] at h
  exact ⟨hnew, h⟩

/-- One byte, or none, over the start of two blocks: the difference wraps
and the loop would encrypt some four thousand million blocks. -/
theorem rewrite_wraps :
    FsRun plainEnv (fun _ _ => True) (start plainEnv) twoBlocks
      ∧ Live twoBlocks 1
      ∧ sizeToBlock (u64 (0 + 1)) = 1 ∧ Entry.blockCount (entryAt twoBlocks.disk 1) = 2
      ∧ newBlocks (entryAt twoBlocks.disk 1) 1 0 = 2 ^ 32 - 1
      ∧ newBlocks (entryAt twoBlocks.disk 1) 0 0 = 2 ^ 32 - 2
      ∧ (encryptRequest plainEnv fsdesc (entryAt twoBlocks.disk 1) zero 0 1
            (newBlocks (entryAt twoBlocks.disk 1) 1 0) twoBlocks).2.io
          = twoBlocks.io + 2 * (2 ^ 32 - 1) := by
  have hnew : newBlocks (entryAt twoBlocks.disk 1) 1 0 = 2 ^ 32 - 1 := by decide +kernel
  refine ⟨?_, ⟨by omega, by decide +kernel⟩, by decide, by decide +kernel, hnew,
    by decide +kernel, ?_⟩
  · exact runAll_run plainEnv _ _
      ⟨trivial, by decide +kernel, trivial, by decide +kernel, trivial⟩
  · rw [hnew, encryptRequest_io plainEnv_reliable]
    rfl

-- ==== caller

/-- `n` bytes are read at the front of the buffer, at most, and none is
changed. -/
def Gentle (n : Nat) (w w' : FsWorld) : Prop :=
  w'.buf = w.buf ∧ ∃ t, w'.trace = t ++ w.trace ∧ ∀ a ∈ t, a.write = false ∧ a.off + a.len ≤ n

/-- Accesses are only ever added. -/
def Grows (w w' : FsWorld) : Prop := ∃ t, w'.trace = t ++ w.trace

theorem Gentle.discipline (E : FsEnv) (n : Nat) :
    Discipline E (fun _ _ _ => True) (Gentle n) := by
  refine .of_rest (fun w => ⟨rfl, [], rfl, nofun⟩) ?_ fun w _ _ => ⟨rfl, [], rfl, nofun⟩
  rintro a b c ⟨hbuf, t, ht, hin⟩ ⟨hbuf', t', ht', hin'⟩
  refine ⟨hbuf'.trans hbuf, t' ++ t, by rw [ht', ht, List.append_assoc], fun x hx => ?_⟩
  rcases List.mem_append.mp hx with hx | hx
  · exact hin' x hx
  · exact hin x hx

theorem Grows.discipline (E : FsEnv) : Discipline E (fun _ _ _ => True) Grows := by
  refine .of_rest (fun w => ⟨[], rfl⟩) ?_ fun w _ _ => ⟨[], rfl⟩
  rintro a b c ⟨t, ht⟩ ⟨t', ht'⟩
  exact ⟨t' ++ t, by rw [ht', ht, List.append_assoc]⟩

/-- The partial block is filled from the buffer to its end. -/
theorem mergePartial_gentle (h : offset % 4096 = 0 ∨ 4096 ≤ offset % 4096 + n)
    (e : ByteMap) : Keeps (Gentle n) (mergePartial E d e offset) := by
  have hg := Gentle.discipline E n
  unfold mergePartial
  by_cases hp : offset % 4096 = 0
  · rw [if_neg (not_not_intro hp)]
    exact hg.pure _
  · rw [if_pos hp]
    refine hg.bind (hg.walk.decryptBlock _ _) fun _ => hg.bind (fun w => hg.refl w) fun _ => ?_
    refine hg.bind (fun w => ⟨rfl, [_], rfl, fun a ha => ?_⟩) fun _ => hg.pure _
    rw [List.mem_singleton.mp ha]
    exact ⟨rfl, by show 0 + (4096 - offset % 4096) ≤ n; omega⟩

/-- The calls that touch more of the caller than they should: those that
reach the block loop, and those whose partial block goes on behind the
request. -/
def Disturbs (disk : ByteMap) (ino size offset : Nat) : Prop :=
  WriteLoops disk ino size offset
    ∨ (size ≤ FS_IO_MAX_SIZE ∧ offset ≤ Entry.size (readEntry disk ino)
        ∧ offset % 4096 ≠ 0 ∧ offset % 4096 + size < 4096)

/-- Only bytes of the request were read, and the caller's memory is as it
was. -/
def Undisturbed (size : Nat) (w w' : FsWorld) : Prop :=
  w'.buf = w.buf
    ∧ ∃ t, w'.trace = t ++ w.trace ∧ ∀ a ∈ t, a.write = false → a.off + a.len ≤ size

theorem Gentle.undisturbed (h : Gentle n w w') : Undisturbed n w w' := by
  obtain ⟨hbuf, t, ht, hin⟩ := h
  exact ⟨hbuf, t, ht, fun a ha _ => (hin a ha).2⟩

section Caller

variable {ino : Nat} {w : FsWorld}

/-- Up to the loop, only a partial block is read. -/
theorem writeFront_gentle
    (hpart : size ≤ FS_IO_MAX_SIZE → offset ≤ Entry.size (readEntry w.disk ino) →
      offset % 4096 = 0 ∨ 4096 ≤ offset % 4096 + n) :
    Gentle n w (writeFront E ino size offset w).2 := by
  have hg := Gentle.discipline E n
  unfold writeFront
  by_cases hmax : FS_IO_MAX_SIZE < size
  · rw [if_pos hmax]
    exact hg.refl w
  rw [if_neg hmax]
  rcases fsdr_outcome (entryAddr ino) 304 w with h | ⟨-, h⟩
  case inr =>
    have hio := hg.read (entryAddr ino) 304 w
    rw [h] at hio
    rw [bind_of_error h]
    exact hio
  case inl =>
    have hio := hg.read (entryAddr ino) 304 w
    rw [h] at hio
    rw [bind_of_ok h]
    refine hg.trans hio ?_
    by_cases hoff : Entry.size (slice w.disk (u64 (entryAddr ino)) 304) < offset
    · rw [if_pos hoff]
      exact hg.refl _
    rw [if_neg hoff]
    have hpart := hpart (Nat.not_lt.mp hmax) (Nat.not_lt.mp hoff)
    refine hg.bind (hg.walk.probeGrowth _ _) (fun aba => ?_) _
    refine hg.bind (mergePartial_gentle hpart _) fun block => ?_
    refine hg.bind (hg.walk.relocate hg.ignores (fun n w => ?_) (blockIn_any _) _ _ _ _) fun e' => ?_
    · exact ⟨rfl, [], rfl, nofun⟩
    · exact hg.bind (hg.walk.writePartial _ _ _ fun _ => blockIn_any _ _) fun _ => hg.pure _

theorem writeEnd_gentle (n ino size offset : Nat) (aba : Option Nat) (new : Nat)
    (e : ByteMap) : Keeps (Gentle n) (writeEnd E ino size offset aba new e) :=
  (Gentle.discipline E n).walk.writeEnd _ _ _ _ _ _

/-- A call that does not disturb its caller, under any pattern of disk
failures. -/
theorem fsWrite_gentle (f : Pattern) (hno : ¬ Disturbs w.disk ino size offset) :
    Gentle size w (fsWrite (E.failing f) fsdesc ino size offset w).2 := by
  have hg := Gentle.discipline (E.failing f) size
  have hfront : Gentle size w (writeFront (E.failing f) ino size offset w).2 := by
    refine writeFront_gentle fun hmax hoff => ?_
    by_contra hlt
    exact hno (.inr ⟨hmax, hoff, by omega, by omega⟩)
  rw [fsWrite_split, Prog.bind_apply]
  rcases hrun : writeFront (E.failing f) ino size offset w with ⟨_ | r, w1⟩
  · rw [hrun] at hfront
    exact hfront
  · rw [hrun] at hfront
    have hnew : r.2.1 = 0 := by
      by_contra hne
      exact hno (.inl ((writeFront_ok hrun).1 hne))
    refine hg.trans hfront (hg.bind ?_ (fun e => writeEnd_gentle _ _ _ _ _ _ _) w1)
    unfold writeRest
    rw [if_neg (not_not_intro hnew)]
    exact hg.pure _

/-- `Cipher` is a permutation of the 16-byte blocks, whatever the key. -/
def FsEnv.Permutes (E : FsEnv) : Prop :=
  ∀ key b b', (∀ i < 16, E.cipher key b i = E.cipher key b' i) → ∀ i < 16, b i = b' i

/-- Two counters in a row give two different blocks of key stream, so one
of the bytes is not zero. -/
theorem FsEnv.Permutes.keyStream (h : E.Permutes) (ctx : AesCtx) :
    ∃ x < 4096, keyStream E ctx x ≠ 0 := by
  by_contra hall
  have hzero : ∀ x < 4096, Fs.keyStream E ctx x = 0 := by
    intro x hx
    by_contra hne
    exact hall ⟨x, hx, hne⟩
  have hblock : ∀ k < 2, ∀ i < 16,
      E.cipher ctx.RoundKey (slice (ctrInc^[k] ctx.Iv) 0 16) i = 0 := by
    intro k hk i hi
    have hx := hzero (16 * k + i) (by omega)
    unfold Fs.keyStream at hx
    rwa [show (16 * k + i) / 16 = k by omega, show (16 * k + i) % 16 = i by omega] at hx
  have hsame := h ctx.RoundKey (slice (ctrInc^[1] ctx.Iv) 0 16) (slice (ctrInc^[0] ctx.Iv) 0 16)
    fun i hi => (hblock 1 (by decide) i hi).trans (hblock 0 (by decide) i hi).symm
  have hbig : big (ctrInc^[1] ctx.Iv) 16 = big (ctrInc^[0] ctx.Iv) 16 := by
    refine big_congr fun i hi => ?_
    have hi' := hsame i hi
    rwa [slice_of_lt hi, slice_of_lt hi, Nat.zero_add] at hi'
  rw [big_ctrInc_iterate, big_ctrInc_iterate] at hbig
  omega

theorem encryptCaller_buf (E : FsEnv) (index : Nat) (ctx : AesCtx) (off : Nat)
    (w : FsWorld) :
    ∃ w', encryptCaller E fsdesc index ctx off w = (.ok (), w')
      ∧ w'.buf = (aesCtrXcryptBuffer E ctx w.buf off 4096).2 := by
  obtain ⟨w', hrun, -⟩ := encryptBlock_ignored E index ctx (slice w.buf off 4096) { w with
      buf := (aesCtrXcryptBuffer E ctx w.buf off 4096).2
      trace := ⟨true, off, 4096⟩ :: ⟨false, off, 4096⟩ :: w.trace }
  have hg := Gentle.discipline E 0
  have hkeep := (Keeps.ignoreErr (hg.walk.encryptBlock (blockIn_any _ _) _ _)).of_run hrun
  exact ⟨w', hrun, hkeep.1⟩

/-- The loop leaves the blocks behind it as it made them. -/
theorem writeLoop_buf (E : FsEnv) (index : Nat) :
    ∀ n i ctx w, x < i * 4096 → (writeLoop E fsdesc index n i ctx w).2.buf x = w.buf x := by
  intro n
  induction n with
  | zero => exact fun _ _ _ _ => rfl
  | succ n ih =>
    intro i ctx w hx
    obtain ⟨w', hrun, hbuf⟩ := encryptCaller_buf E (index + i) ctx (i * 4096) w
    have hstep : writeLoop E fsdesc index (n + 1) i ctx w
        = writeLoop E fsdesc index n (i + 1) (nextCtx E ctx) w' := bind_of_ok hrun
    have hx' : x < (i + 1) * 4096 :=
      Nat.lt_of_lt_of_le hx (Nat.mul_le_mul_right _ (Nat.le_succ i))
    have hrest := ih (i + 1) (nextCtx E ctx) w' hx'
    rw [hstep, hrest, hbuf]
    exact if_neg (by omega)

/-- A block of the caller is encrypted where it lies. -/
theorem writeLoop_changes (h : E.Permutes) (index : Nat) (ctx : AesCtx) (w : FsWorld)
    (hn : n ≠ 0) : (writeLoop E fsdesc index n 0 ctx w).2.buf ≠ w.buf := by
  obtain ⟨n, rfl⟩ := Nat.exists_eq_succ_of_ne_zero hn
  obtain ⟨x, hx, hne⟩ := h.keyStream ctx
  obtain ⟨w', hrun, hbuf⟩ := encryptCaller_buf E (index + 0) ctx (0 * 4096) w
  have hstep : writeLoop E fsdesc index (n + 1) 0 ctx w
      = writeLoop E fsdesc index n 1 (nextCtx E ctx) w' := bind_of_ok hrun
  intro hsame
  have hx' := congrFun hsame x
  rw [hstep, writeLoop_buf E index n 1 _ w' (by omega), hbuf] at hx'
  unfold aesCtrXcryptBuffer at hx'
  dsimp only at hx'
  rw [if_pos (by omega), Nat.zero_mul, Nat.sub_zero] at hx'
  refine hne ?_
  calc keyStream E ctx x = w.buf x ^^^ (w.buf x ^^^ keyStream E ctx x) := by
        rw [← UInt8.xor_assoc, UInt8.xor_self, UInt8.zero_xor]
    _ = 0 := by rw [hx', UInt8.xor_self]

theorem reliable_failing (hE : E.Reliable) : E.failing allWell = E := by
  cases E with
  | mk fault rand stack keyExpansion cipher =>
    have hf : fault = fun _ _ _ => none := by
      funext k start n
      exact hE k start n
    rw [hf]
    rfl

/-- The block loop is reached: the buffer does not survive. -/
theorem fsWrite_changes (hE : E.Reliable) (hp : E.Permutes)
    (h : WriteLoops w.disk ino size offset) :
    (fsWrite E fsdesc ino size offset w).2.buf ≠ w.buf := by
  obtain ⟨⟨aba, new, e, ctx⟩, w1, hfront, hnew⟩ := writeFront_total h
  rw [reliable_failing hE] at hfront
  have hbuf : w1.buf = w.buf := by
    have hg : Gentle 4096 w (writeFront E ino size offset w).2 :=
      writeFront_gentle fun _ _ => .inr (Nat.le_add_left _ _)
    rw [hfront] at hg
    exact hg.1
  obtain ⟨w2, hloop, -⟩ := writeLoop_back E (Entry.startBlock e + sizeToBlock offset) new 0 ctx w1
  have hrest : writeRest E fsdesc e ctx offset (sizeToBlock (u64 (offset + size))) new w1
      = (.ok (Entry.setBlockCount e (sizeToBlock (u64 (offset + size)))), w2) := by
    unfold writeRest
    rw [if_pos hnew, bind_of_ok hloop]
    rfl
  have hchange := writeLoop_changes hp (Entry.startBlock e + sizeToBlock offset) ctx w1 hnew
  rw [hloop, hbuf] at hchange
  have hend := writeEnd_gentle (E := E) 0 ino size offset aba new
    (Entry.setBlockCount e (sizeToBlock (u64 (offset + size)))) w2
  rw [fsWrite_split, bind_of_ok hfront, bind_of_ok hrest]
  exact fun hsame => hchange (hend.1.symm.trans hsame)

theorem writeLoop_grows (E : FsEnv) (index : Nat) :
    ∀ n i ctx, Keeps Grows (writeLoop E d index n i ctx) := by
  have hg := Grows.discipline E
  intro n
  induction n with
  | zero => exact fun _ _ => hg.pure _
  | succ n ih =>
    intro i ctx
    refine hg.bind (hg.bind (fun w => hg.refl w) fun _ => ?_) fun _ => ih _ _
    refine hg.bind (fun w => ⟨[_, _], rfl⟩) fun _ => ?_
    exact Keeps.ignoreErr (hg.walk.encryptBlock (blockIn_any _ _) _ _)

/-- A partial block is filled from the buffer up to its end, also when the
request ends before. -/
theorem fsWrite_overreads (hE : E.Reliable) (hmax : size ≤ FS_IO_MAX_SIZE)
    (hoff : offset ≤ Entry.size (readEntry w.disk ino)) (hp : offset % 4096 ≠ 0) :
    ∃ t, (fsWrite E fsdesc ino size offset w).2.trace
      = t ++ ⟨false, 0, 4096 - offset % 4096⟩ :: w.trace := by
  have hg := Grows.discipline E
  obtain ⟨aba, io, hprobe, -⟩ := probeGrowth_eq hE (readEntry w.disk ino)
    (subU32 (sizeToBlock (u64 (offset + size))) (Entry.blockCount (readEntry w.disk ino)))
    { w with io := w.io + 1 }
  obtain ⟨block, hmerge⟩ : ∃ block, mergePartial E fsdesc (readEntry w.disk ino) offset
      { w with io := io } = (.ok block, { w with
        io := io + 1, trace := ⟨false, 0, 4096 - offset % 4096⟩ :: w.trace }) := by
    unfold mergePartial decryptBlock
    rw [if_pos hp]
    rw [Prog.bind_assoc, bind_of_ok (fsdr_reliable hE _ _ _)]
    exact ⟨_, rfl⟩
  unfold fsWrite
  rw [if_neg (Nat.not_lt.mpr hmax), bind_of_ok (fsdr_readEntry hE ino w),
    if_neg (Nat.not_lt.mpr hoff)]
  rw [bind_of_ok hprobe, bind_of_ok hmerge]
  refine hg.bind (hg.walk.relocate hg.ignores (fun n w => ⟨[], rfl⟩) (blockIn_any _) _ _ _ _) (fun e => ?_) _
  refine hg.bind (hg.walk.writePartial _ _ _ fun _ => blockIn_any _ _) fun ctx => ?_
  refine hg.bind (Keeps.ite (hg.bind (writeLoop_grows E _ _ _ _) fun _ => hg.pure _)
    (hg.pure _)) fun e => ?_
  exact hg.walk.writeEnd ino _ _ aba _ e

/-- The caller is left alone by the calls that do not disturb it, whatever
the disk does; and on a disk that works, with a cipher that permutes its
blocks, by no others. -/
theorem write_undisturbed_iff (E : FsEnv) (w : FsWorld) (ino size offset : Nat) :
    (∀ f : Pattern, ¬ Disturbs w.disk ino size offset →
      Undisturbed size w (fsWrite (E.failing f) fsdesc ino size offset w).2)
    ∧ (E.Reliable → E.Permutes →
        (Undisturbed size w (fsWrite E fsdesc ino size offset w).2
          ↔ ¬ Disturbs w.disk ino size offset)) := by
  refine ⟨fun f hno => (fsWrite_gentle f hno).undisturbed, fun hE hp => ⟨?_, fun hno => ?_⟩⟩
  · rintro ⟨hbuf, t, ht, hin⟩ (hloops | ⟨hmax, hoff, hpart, hlt⟩)
    · exact fsWrite_changes hE hp hloops hbuf
    · obtain ⟨t', ht'⟩ := fsWrite_overreads hE hmax hoff hpart
      rw [ht, List.append_cons] at ht'
      obtain rfl := List.append_cancel_right ht'
      have hlen := hin ⟨false, 0, 4096 - offset % 4096⟩ (by simp) rfl
      simp only at hlen
      omega
  · have h := fsWrite_gentle (E := E) allWell hno
    rw [reliable_failing hE] at h
    exact h.undisturbed

end Caller

theorem plainEnv_permutes : plainEnv.Permutes := by
  intro key b b' h i hi
  have hx : (key i ^^^ b i) ^^^ 7 = (key i ^^^ b' i) ^^^ 7 := h i hi
  exact (UInt8.xor_right_inj _).mp ((UInt8.xor_left_inj _).mp hx)

/-- A byte written over the first one of a file needs no new block: the
caller is left alone, on a disk that works and on one whose first access
fails. -/
theorem write_undisturbed_firstByte :
    Undisturbed 1 firstByte (fsWrite plainEnv fsdesc 1 1 0 firstByte).2
      ∧ Undisturbed 1 firstByte
          (fsWrite (plainEnv.failing (failAt firstByte.io)) fsdesc 1 1 0 firstByte).2 := by
  have hno : ¬ Disturbs firstByte.disk 1 1 0 := by
    rintro (⟨-, -, hnew, -⟩ | ⟨-, -, hp, -⟩)
    · exact hnew (by decide +kernel)
    · exact hp (by decide)
  have h := write_undisturbed_iff plainEnv firstByte 1 1 0
  exact ⟨(h.2 plainEnv_reliable plainEnv_permutes).mpr hno, h.1 _ hno⟩

/-- An inode, and a caller whose buffer is all `A`. -/
def freshFile : FsWorld :=
  { runAll plainEnv (start plainEnv) [.allocInode] with buf := fun _ => 65, trace := [] }

/-- One byte written to the fresh file: 4096 bytes of the caller are read,
and its first byte is no longer an `A`. -/
theorem write_encrypts_caller :
    FsRun plainEnv (fun _ _ => True) (start plainEnv)
        (runAll plainEnv (start plainEnv) [.allocInode])
      ∧ Live freshFile 1
      ∧ (fsWrite plainEnv fsdesc 1 1 0 freshFile).1.toOption = some 1
      ∧ ⟨false, 0, 4096⟩ ∈ (fsWrite plainEnv fsdesc 1 1 0 freshFile).2.trace
      ∧ freshFile.buf 0 = 65
      ∧ (fsWrite plainEnv fsdesc 1 1 0 freshFile).2.buf 0 ≠ 65 := by
  refine ⟨?_, ⟨by omega, by decide +kernel⟩, by decide +kernel, by decide +kernel, rfl,
    by decide +kernel⟩
  exact runAll_run plainEnv _ _ ⟨trivial, by decide +kernel, trivial⟩

end RojocOS.Fs
