/-
Runs of blocks: what `fs_write` and `copy_block` put on the disk.

# Which context seals which block

Both loops hand one context from block to block, so the block `j` places
after the first is sealed under `(nextCtx E)^[j]` of the context the run
started with (`writeLoop_seals`, `copyBlockFrom_seals`). `fs_write`
starts at `cipher_iv + offset / BLOCK_SIZE`, with the partial block first
when there is one (`encryptRequest_seals`); `copy_block` starts both of
its contexts at position 0.

# What comes back

`fs_read` opens position `k` under `cipher_iv + k`. By `writerCtx_iff`
that is the counter a block was sealed under exactly when the run's base
IV is `Aligned` with the block's distance from the start of the run; in
that case, and in general in no other, the block reads back, and a
relocated block reads as it did before.
-/
import RojocOS.Fs.Proofs.Counters

namespace RojocOS.Fs

open ByteMap Prog

variable {E : FsEnv} {c j x : Nat} {ctx : AesCtx} {d1 d2 d3 : ByteMap}
variable {disk disk' e plain : ByteMap} {a b i index k new offset p : Nat}

/-- Data block `index` holds `plain` encrypted under `ctx`. -/
def Sealed (E : FsEnv) (disk : ByteMap) (index : Nat) (ctx : AesCtx)
    (plain : ByteMap) : Prop :=
  ∀ x < 4096, disk (88988 + index * 4096 + x)
    = (aesCtrXcryptBuffer E ctx plain 0 4096).2 x

/-- The data blocks other than those from `a` to `b - 1` are the same. -/
def KeepsBlocks (disk disk' : ByteMap) (a b : Nat) : Prop :=
  ∀ i, i < a ∨ b ≤ i → ∀ x < 4096,
    disk' (88988 + i * 4096 + x) = disk (88988 + i * 4096 + x)

theorem Sealed.keep (h : Sealed E disk i ctx plain)
    (hk : KeepsBlocks disk disk' a b) (hi : i < a ∨ b ≤ i) :
    Sealed E disk' i ctx plain := by
  intro x hx
  rw [hk i hi x hx]
  exact h x hx

-- ==== one block

theorem putBlock_seals (disk : ByteMap) (h : index < 84112)
    (ctx : AesCtx) (plain : ByteMap) :
    Sealed E (putBlock E disk index ctx plain) index ctx plain := by
  intro x hx
  unfold putBlock
  rw [copy_of_not_mem (by omega), copy_of_mem (by omega), Nat.zero_add,
    Nat.add_sub_cancel_left]

theorem putBlock_keeps (disk : ByteMap) (h : index < 84112)
    (ctx : AesCtx) (plain : ByteMap) :
    KeepsBlocks disk (putBlock E disk index ctx plain) index (index + 1) := by
  intro i hi x hx
  unfold putBlock
  rw [copy_of_not_mem (by omega), copy_of_not_mem (by omega)]

theorem KeepsBlocks.trans
    (h : KeepsBlocks d1 d2 a b) (h' : KeepsBlocks d2 d3 b c) (hab : a ≤ b)
    (hbc : b ≤ c) : KeepsBlocks d1 d3 a c := by
  intro i hi x hx
  rw [h' i (by omega) x hx, h i (by omega) x hx]

theorem encryptCaller_eq (hE : E.Reliable) (h : index < 84112)
    (ctx : AesCtx) (off : Nat) (w : FsWorld) :
    encryptCaller E fsdesc index ctx off w = (.ok (), { w with
      disk := putBlock E w.disk index ctx (slice w.buf off 4096)
      io := w.io + 2
      buf := (aesCtrXcryptBuffer E ctx w.buf off 4096).2
      trace := ⟨true, off, 4096⟩ :: ⟨false, off, 4096⟩ :: w.trace }) := by
  unfold encryptCaller
  rw [get_bind, bind_of_ok (x := Prog.modify _) rfl]
  exact ignoreErr_of_ok (encryptBlock_eq hE h _ _ _)

-- ==== the loops

/-- The full-block loop of `fs_write`. Encrypting a block in place leaves
the later ones of `buf` alone. -/
theorem writeLoop_seals (hE : E.Reliable) (first : Nat) :
    ∀ n i ctx w, first + i + n ≤ 84112 →
      ∃ w', writeLoop E fsdesc first n i ctx w = (.ok (), w')
        ∧ (∀ m < n, Sealed E w'.disk (first + i + m) ((nextCtx E)^[m] ctx)
            (slice w.buf ((i + m) * 4096) 4096))
        ∧ KeepsBlocks w.disk w'.disk (first + i) (first + i + n) := by
  intro n
  induction n with
  | zero =>
    intro i ctx w _
    exact ⟨w, rfl, fun m hm => absurd hm (Nat.not_lt_zero m), fun _ _ _ _ => rfl⟩
  | succ n ih =>
    intro i ctx w hle
    have hcall := encryptCaller_eq hE (show first + i < 84112 by omega) ctx (i * 4096) w
    obtain ⟨w', hrun, hseal, hkeep⟩ := ih (i + 1) (nextCtx E ctx) _
      (by omega)
    refine ⟨w', ?_, ?_, ?_⟩
    · unfold writeLoop
      rw [bind_of_ok hcall]
      exact hrun
    · intro m hm
      cases m with
      | zero =>
        exact (putBlock_seals w.disk (by omega) ctx _).keep hkeep (by omega)
      | succ m =>
        have hs := hseal m (by omega)
        have hbuf : slice (aesCtrXcryptBuffer E ctx w.buf (i * 4096) 4096).2
            ((i + 1 + m) * 4096) 4096 = slice w.buf ((i + (m + 1)) * 4096) 4096 := by
          rw [show i + 1 + m = i + (m + 1) by omega]
          refine slice_congr fun x h1 _ => if_neg ?_
          omega
        rw [hbuf, show first + (i + 1) + m = first + i + (m + 1) by omega] at hs
        exact hs
    · have hput := putBlock_keeps (E := E) w.disk (show first + i < 84112 by omega) ctx
        (slice w.buf (i * 4096) 4096)
      have hboth := hput.trans hkeep (by omega) (by omega)
      rwa [show first + (i + 1) + n = first + i + (n + 1) by omega] at hboth

/-- The block at `index`, opened under `ctx`. -/
def opened (E : FsEnv) (disk : ByteMap) (index : Nat) (ctx : AesCtx) : ByteMap :=
  (aesCtrXcryptBuffer E ctx (slice disk (88988 + index * 4096) 4096) 0 4096).2

theorem opened_keep
    (hk : KeepsBlocks disk disk' a b) (hi : i < a ∨ b ≤ i) (ctx : AesCtx) :
    opened E disk' i ctx = opened E disk i ctx := by
  have hslice : slice disk' (88988 + i * 4096) 4096
      = slice disk (88988 + i * 4096) 4096 := by
    funext x
    unfold slice
    by_cases hx : x < 4096
    · rw [if_pos hx, if_pos hx, hk i hi x hx]
    · rw [if_neg hx, if_neg hx]
  unfold opened
  rw [hslice]

theorem decryptBlock_eq (hE : E.Reliable) (h : index < 2 ^ 20)
    (ctx : AesCtx) (w : FsWorld) :
    decryptBlock E fsdesc index ctx w
      = (.ok (nextCtx E ctx, opened E w.disk index ctx), { w with io := w.io + 1 }) := by
  unfold decryptBlock
  rw [bind_of_ok (fsdr_reliable hE _ _ _), dataAddr h]
  rfl

/-- The loop of `copy_block`, between ranges that do not meet. -/
theorem copyBlockFrom_seals (hE : E.Reliable) (src dst : Nat) :
    ∀ n i ctxDec ctxEnc w, src + i + n ≤ 84112 → dst + i + n ≤ 84112 →
      (src + n ≤ dst ∨ dst + n ≤ src) →
      ∃ w', copyBlockFrom E fsdesc src dst n i ctxDec ctxEnc w = (.ok (), w')
        ∧ (∀ m < n, Sealed E w'.disk (dst + i + m) ((nextCtx E)^[m] ctxEnc)
            (opened E w.disk (src + i + m) ((nextCtx E)^[m] ctxDec)))
        ∧ KeepsBlocks w.disk w'.disk (dst + i) (dst + i + n) := by
  intro n
  induction n with
  | zero =>
    intro i ctxDec ctxEnc w _ _ _
    exact ⟨w, rfl, fun m hm => absurd hm (Nat.not_lt_zero m), fun _ _ _ _ => rfl⟩
  | succ n ih =>
    intro i ctxDec ctxEnc w hs hd hdis
    have hdec := decryptBlock_eq hE (show src + i < 2 ^ 20 by omega) ctxDec w
    have henc := encryptBlock_eq hE (show dst + i < 84112 by omega) ctxEnc
      (opened E w.disk (src + i) ctxDec) { w with io := w.io + 1 }
    have hput := putBlock_keeps (E := E) w.disk (show dst + i < 84112 by omega) ctxEnc
      (opened E w.disk (src + i) ctxDec)
    obtain ⟨w', hrun, hseal, hkeep⟩ := ih (i + 1) (nextCtx E ctxDec) (nextCtx E ctxEnc)
      _ (by omega) (by omega) (by omega)
    refine ⟨w', ?_, ?_, ?_⟩
    · unfold copyBlockFrom
      rw [bind_of_ok hdec]
      show (encryptBlock E fsdesc (dst + i) ctxEnc (opened E w.disk (src + i) ctxDec)
        >>= fun _ => copyBlockFrom E fsdesc src dst n (i + 1) (nextCtx E ctxDec)
          (nextCtx E ctxEnc)) _ = _
      rw [bind_of_ok henc]
      exact hrun
    · intro m hm
      cases m with
      | zero => exact (putBlock_seals w.disk (by omega) ctxEnc _).keep hkeep (by omega)
      | succ m =>
        have hm' := hseal m (by omega)
        rw [show dst + (i + 1) + m = dst + i + (m + 1) by omega,
          show src + (i + 1) + m = src + i + (m + 1) by omega] at hm'
        -- the block still to be copied is not the one just written
        rw [opened_keep hput (by omega)] at hm'
        exact hm'
    · have hboth := hput.trans hkeep (by omega) (by omega)
      rwa [show dst + (i + 1) + n = dst + i + (n + 1) by omega] at hboth

-- ==== one request

/-- The two stretches of `fs_write` that encrypt, "Handle partial block"
and "Handle the rest of the blocks", run one after the other. -/
def encryptRequest (E : FsEnv) (d : FsDescriptor) (e partialBlock : ByteMap)
    (offset totalBlock newBlock : Nat) : FsM ByteMap := do
  let iv := (Entry.cipherIv e + offset / 4096) % 2 ^ 128
  let ctx := aesInitCtxIv E (Entry.cipherKey e) iv
  let ctx ← writePartial E d e ctx partialBlock offset
  writeRest E d e ctx offset totalBlock newBlock

/-- How many blocks that is. -/
def requestBlocks (offset newBlock : Nat) : Nat :=
  if offset % 4096 ≠ 0 then newBlock + 1 else newBlock

/-- Block `j` of the request in the clear: the partial block comes first
and does not advance `buf`. -/
def requestBlock (buf partialBlock : ByteMap) (offset j : Nat) : ByteMap :=
  if offset % 4096 ≠ 0 then
    if j = 0 then partialBlock else slice buf ((j - 1) * 4096) 4096
  else slice buf (j * 4096) 4096

/-- "Handle the rest of the blocks", from position `p` on. -/
theorem writeRest_seals (hE : E.Reliable)
    (hp : sizeToBlock offset = p) (hle : Entry.startBlock e + p + new ≤ 84112)
    (ctx : AesCtx) (total : Nat) (w : FsWorld) :
    ∃ e' w', writeRest E fsdesc e ctx offset total new w = (.ok e', w')
      ∧ (∀ m < new, Sealed E w'.disk (Entry.startBlock e + p + m) ((nextCtx E)^[m] ctx)
          (slice w.buf (m * 4096) 4096))
      ∧ KeepsBlocks w.disk w'.disk (Entry.startBlock e + p)
          (Entry.startBlock e + p + new) := by
  unfold writeRest
  by_cases hnew : new ≠ 0
  · obtain ⟨w', hrun, hseal, hkeep⟩ := writeLoop_seals hE (Entry.startBlock e + p) new 0
      ctx w hle
    refine ⟨Entry.setBlockCount e total, w', ?_, fun m hm => ?_, hkeep⟩
    · rw [if_pos hnew, hp, bind_of_ok hrun]
      rfl
    · have hs := hseal m hm
      rwa [Nat.add_zero, Nat.zero_add] at hs
  · rw [if_neg hnew]
    exact ⟨e, w, rfl, fun m hm => absurd hm (by omega), fun _ _ _ _ => rfl⟩

/-- Every block of the request is sealed under the context the run has
reached by then. -/
theorem encryptRequest_seals (hE : E.Reliable)
    (hle : Entry.startBlock e + offset / 4096 + requestBlocks offset new ≤ 84112)
    (block : ByteMap) (total : Nat) (w : FsWorld) :
    ∃ e' w', encryptRequest E fsdesc e block offset total new w = (.ok e', w')
      ∧ ∀ j < requestBlocks offset new,
          Sealed E w'.disk (Entry.startBlock e + (offset / 4096 + j))
            (writerCtx E (Entry.cipherKey e) (Entry.cipherIv e) (offset / 4096) j)
            (requestBlock w.buf block offset j) := by
  unfold requestBlocks at hle ⊢
  unfold encryptRequest requestBlock
  by_cases h0 : offset % 4096 ≠ 0
  · rw [if_pos h0] at hle
    simp only [if_pos h0]
    have hp : sizeToBlock offset = offset / 4096 + 1 := by
      unfold sizeToBlock u64 u32
      omega
    have hpart := writePartial_one hE h0
      (show Entry.startBlock e + offset / 4096 < 84112 by omega)
      (readerCtx E (Entry.cipherKey e) (Entry.cipherIv e) (offset / 4096)) block w
    have hput := putBlock_seals (E := E) w.disk
      (show Entry.startBlock e + offset / 4096 < 84112 by omega)
      (readerCtx E (Entry.cipherKey e) (Entry.cipherIv e) (offset / 4096)) block
    obtain ⟨e', w', hrun, hseal, hkeep⟩ := writeRest_seals hE hp
      (show Entry.startBlock e + (offset / 4096 + 1) + new ≤ 84112 by omega) (nextCtx E (readerCtx E (Entry.cipherKey e) (Entry.cipherIv e)
        (offset / 4096))) total _
    refine ⟨e', w', (bind_of_ok hpart).trans hrun, fun j hj => ?_⟩
    cases j with
    | zero =>
      rw [if_pos rfl, Nat.add_zero]
      exact hput.keep hkeep (by omega)
    | succ j =>
      have hs := hseal j (by omega)
      rw [if_neg (Nat.succ_ne_zero j), Nat.add_sub_cancel]
      rwa [show Entry.startBlock e + (offset / 4096 + 1) + j
        = Entry.startBlock e + (offset / 4096 + (j + 1)) by omega] at hs
  · rw [if_neg h0] at hle
    simp only [if_neg h0]
    have hp : sizeToBlock offset = offset / 4096 := by
      unfold sizeToBlock u64 u32
      omega
    have hpart : writePartial E fsdesc e
        (readerCtx E (Entry.cipherKey e) (Entry.cipherIv e) (offset / 4096)) block offset
        = pure (readerCtx E (Entry.cipherKey e) (Entry.cipherIv e) (offset / 4096)) :=
      if_neg h0
    obtain ⟨e', w', hrun, hseal, hkeep⟩ := writeRest_seals hE hp (by omega)
      (readerCtx E (Entry.cipherKey e) (Entry.cipherIv e) (offset / 4096)) total w
    refine ⟨e', w', ?_, fun j hj => ?_⟩
    · exact (congrFun (congrArg (· >>= _) hpart) w).trans hrun
    · rw [← Nat.add_assoc]
      exact hseal j hj

-- ==== the claim

/-- A sealed block of an aligned run reads back. -/
theorem plainBlock_of_aligned (hk : p + j = k)
    (hj : j < 2 ^ 32) (h : Sealed E disk (Entry.startBlock e + k)
      (writerCtx E (Entry.cipherKey e) (Entry.cipherIv e) p j) plain)
    (ha : Aligned ((Entry.cipherIv e + p) % 2 ^ 128) j) (hx : x < 4096) :
    plainBlock E disk e k x = plain x := by
  subst hk
  have hkey : (writerCtx E (Entry.cipherKey e) (Entry.cipherIv e) p j).RoundKey
      = (readerCtx E (Entry.cipherKey e) (Entry.cipherIv e) (p + j)).RoundKey := by
    unfold writerCtx
    rw [nextCtx_iterate]
    rfl
  have hslice : slice disk (88988 + (Entry.startBlock e + (p + j)) * 4096) 4096
      = slice (aesCtrXcryptBuffer E (writerCtx E (Entry.cipherKey e) (Entry.cipherIv e) p j)
          plain 0 4096).2 0 4096 := by
    funext i
    by_cases hi : i < 4096
    · rw [slice_of_lt hi, slice_of_lt hi, Nat.zero_add, h i hi]
    · unfold slice
      rw [if_neg hi, if_neg hi]
  unfold plainBlock
  rw [hslice, xcrypt_congr hkey ((writerCtx_iff E _ hj).mpr ha)]
  exact xcrypt_xcrypt _ _ hx

/-- `copy_block` starts both contexts at position 0 of their files. -/
theorem readerCtx_zero (E : FsEnv) (e : ByteMap) :
    aesInitCtxIv E (Entry.cipherKey e) (Entry.cipherIv e)
      = readerCtx E (Entry.cipherKey e) (Entry.cipherIv e) 0 := by
  have hlt : Entry.cipherIv e < 2 ^ 128 := load_lt e 288 16
  unfold readerCtx
  rw [Nat.add_zero, Nat.mod_eq_of_lt hlt]

/-- What an aligned block was decrypted to on the way. -/
theorem opened_of_aligned (hk : k < 2 ^ 32)
    (ha : Aligned (Entry.cipherIv e % 2 ^ 128) k) (disk : ByteMap) :
    opened E disk (Entry.startBlock e + k)
        (writerCtx E (Entry.cipherKey e) (Entry.cipherIv e) 0 k)
      = plainBlock E disk e k := by
  rw [← Nat.add_zero (Entry.cipherIv e)] at ha
  have hsame := (writerCtx_iff E (Entry.cipherKey e) hk).mpr ha
  rw [Nat.zero_add] at hsame
  refine xcrypt_congr ?_ hsame _
  unfold writerCtx
  rw [nextCtx_iterate]
  rfl

/-- The writers' counter for a block is the reader's exactly when the
base IV is aligned with the block's place in the run. The encrypting
stretches of `fs_write` and `copy_block` seal every block under the
writers' counter, so an aligned block reads back; and a block aligned
under both IVs reads after its relocation as before. -/
theorem counters_agree_iff (E : FsEnv) :
    (∀ key iv p j, j < 2 ^ 32 →
      (SameCounters (writerCtx E key iv p j) (readerCtx E key iv (p + j))
        ↔ Aligned ((iv + p) % 2 ^ 128) j))
    ∧ (E.Reliable → ∀ e block offset total new w,
        Entry.startBlock e + offset / 4096 + requestBlocks offset new ≤ 84112 →
        ∃ e' w', encryptRequest E fsdesc e block offset total new w = (.ok e', w')
          ∧ ∀ j < requestBlocks offset new,
              Sealed E w'.disk (Entry.startBlock e + (offset / 4096 + j))
                (writerCtx E (Entry.cipherKey e) (Entry.cipherIv e) (offset / 4096) j)
                (requestBlock w.buf block offset j)
              ∧ (Aligned ((Entry.cipherIv e + offset / 4096) % 2 ^ 128) j →
                  ∀ x < 4096, plainBlock E w'.disk e (offset / 4096 + j) x
                    = requestBlock w.buf block offset j x))
    ∧ (E.Reliable → ∀ e e' n w,
        Entry.startBlock e + n ≤ 84112 → Entry.startBlock e' + n ≤ 84112 →
        (Entry.startBlock e + n ≤ Entry.startBlock e'
          ∨ Entry.startBlock e' + n ≤ Entry.startBlock e) →
        ∃ w', copyBlock E fsdesc (Entry.startBlock e) (Entry.cipherKey e)
            (Entry.cipherIv e) (Entry.startBlock e') (Entry.cipherKey e')
            (Entry.cipherIv e') n w = (.ok (), w')
          ∧ ∀ k < n,
              Sealed E w'.disk (Entry.startBlock e' + k)
                (writerCtx E (Entry.cipherKey e') (Entry.cipherIv e') 0 k)
                (opened E w.disk (Entry.startBlock e + k)
                  (writerCtx E (Entry.cipherKey e) (Entry.cipherIv e) 0 k))
              ∧ (Aligned (Entry.cipherIv e % 2 ^ 128) k →
                  Aligned (Entry.cipherIv e' % 2 ^ 128) k →
                  (∀ x < 4096, plainBlock E w'.disk e' k x = plainBlock E w.disk e k x)
                  ∧ ∀ disk' ino fuel size offset, ino < 2 ^ 32 →
                      (∀ a, 88988 ≤ a → disk' a = w'.disk a) →
                      entryAt w.disk ino = e → entryAt disk' ino = e' →
                      Entry.size e' = Entry.size e → Entry.size e ≤ n * 4096 →
                      1 ≤ size → k * 4096 ≤ offset → offset + size ≤ (k + 1) * 4096 →
                      offset + size ≤ Entry.size e → 2 ≤ fuel →
                      readResult E disk' fuel ino size offset
                        = readResult E w.disk fuel ino size offset)) := by
  refine ⟨fun key iv p j hj => writerCtx_iff E key hj, ?_, ?_⟩
  · intro hE e block offset total new w hle
    obtain ⟨e', w', hrun, hseal⟩ := encryptRequest_seals hE hle block total w
    refine ⟨e', w', hrun, fun j hj => ⟨hseal j hj, fun ha x hx => ?_⟩⟩
    exact plainBlock_of_aligned rfl (by omega) (hseal j hj) ha hx
  · intro hE e e' n w hs hd hdis
    obtain ⟨w', hrun, hseal, _⟩ := copyBlockFrom_seals hE (Entry.startBlock e)
      (Entry.startBlock e') n 0 (readerCtx E (Entry.cipherKey e) (Entry.cipherIv e) 0)
      (readerCtx E (Entry.cipherKey e') (Entry.cipherIv e') 0) w hs hd hdis
    refine ⟨w', ?_, fun k hk => ?_⟩
    · unfold copyBlock
      rw [readerCtx_zero, readerCtx_zero]
      exact hrun
    have hsk : Sealed E w'.disk (Entry.startBlock e' + k)
        (writerCtx E (Entry.cipherKey e') (Entry.cipherIv e') 0 k)
        (opened E w.disk (Entry.startBlock e + k)
          (writerCtx E (Entry.cipherKey e) (Entry.cipherIv e) 0 k)) := hseal k hk
    refine ⟨hsk, fun ha ha' => ?_⟩
    rw [opened_of_aligned (by omega) ha] at hsk
    have hplain : ∀ x < 4096, plainBlock E w'.disk e' k x = plainBlock E w.disk e k x := by
      intro x hx
      rw [← Nat.add_zero (Entry.cipherIv e')] at ha'
      exact plainBlock_of_aligned (Nat.zero_add k) (by omega) hsk ha' hx
    refine ⟨hplain, ?_⟩
    intro disk' ino fuel size offset hino hdata he he' hsz hn h1 hlo hhi hin hfuel
    have hdisk : plainBlock E disk' e' k = plainBlock E w'.disk e' k := by
      unfold plainBlock
      rw [slice_congr fun a ha _ => hdata a (by omega)]
    subst he he'
    rw [readResult_plain hE (n := size) hino (by omega) h1
        (by unfold FS_IO_MAX_SIZE; omega) (by omega) (by omega) (by omega),
      readResult_plain hE (n := size) hino (by omega) h1
        (by unfold FS_IO_MAX_SIZE; omega) (by omega) (by omega) (by omega)]
    refine congrArg Except.ok (List.map_congr_left fun i hi => ?_)
    rw [List.mem_range] at hi
    unfold plain
    rw [show (offset + i) / 4096 = k by omega, hdisk]
    exact hplain _ (by omega)

/-- Thirteen full bytes after the first: the counters of block 257 meet. -/
def fullIv : Nat := 256 ^ 14 - 256

theorem fullIv_aligned : Aligned ((fullIv + 0) % 2 ^ 128) 257 := by
  refine .inr ⟨0, by decide, rfl, by decide, by decide, fun i h1 h2 => ?_⟩
  interval_cases i <;> decide

/-- A file in block 4, under another IV. -/
def movedEntry : ByteMap := Entry.setCipherIv (Entry.setStartBlock zero 4) 5

/-- Block 257 under that IV, and a relocated first block. -/
theorem counters_agree_fullIv :
    SameCounters (writerCtx plainEnv zero fullIv 0 257)
        (readerCtx plainEnv zero fullIv (0 + 257))
      ∧ ∃ w', copyBlock plainEnv fsdesc (Entry.startBlock zero) (Entry.cipherKey zero)
            (Entry.cipherIv zero) (Entry.startBlock movedEntry)
            (Entry.cipherKey movedEntry) (Entry.cipherIv movedEntry) 1 (start plainEnv)
          = (.ok (), w')
        ∧ ∀ x < 4096, plainBlock plainEnv w'.disk movedEntry 0 x
            = plainBlock plainEnv (start plainEnv).disk zero 0 x := by
  obtain ⟨hiff, _, hcopy⟩ := counters_agree_iff plainEnv
  refine ⟨(hiff zero fullIv 0 257 (by decide)).mpr fullIv_aligned, ?_⟩
  obtain ⟨w', hrun, hblocks⟩ := hcopy plainEnv_reliable zero movedEntry 1 (start plainEnv)
    (by decide) (by decide) (by decide)
  exact ⟨w', hrun, ((hblocks 0 (by decide)).2 (.inl rfl) (.inl rfl)).1⟩

/-- Two blocks written in one call. -/
def twoBlocks : FsWorld :=
  runAll plainEnv (start plainEnv) [.allocInode, .write 1 (fun _ => 65) 8192 0]

/-- The second of two blocks is written under one counter and read under
another: it does not read back, and moving it changes it once more. -/
theorem second_block_garbled :
    FsRun plainEnv (fun _ _ => True) (start plainEnv) twoBlocks
      ∧ (((FsOp.write 1 (fun _ => 65) 8192 0).exec plainEnv
          (runAll plainEnv (start plainEnv) [.allocInode])).1).toOption = some 8192
      ∧ (readResult plainEnv twoBlocks.disk 3 1 1 0).toOption = some [65]
      ∧ (readResult plainEnv twoBlocks.disk 3 1 1 4096).toOption = some [64]
      ∧ ¬ SameCounters (writerCtx plainEnv zero 0 0 1) (readerCtx plainEnv zero 0 1)
      ∧ plainBlock plainEnv (copyBlock plainEnv fsdesc 0 zero 0 4 zero 5 2 twoBlocks).2.disk
          movedEntry 1 0
        ≠ plainBlock plainEnv twoBlocks.disk zero 1 0 := by
  refine ⟨?_, by decide +kernel, by decide +kernel, by decide +kernel, fun h => ?_,
    by decide +kernel⟩
  · exact runAll_run plainEnv _ _
      ⟨trivial, by decide +kernel, trivial, by decide +kernel, trivial⟩
  · exact absurd (congrFun (h 0 (by decide)) 0) (by decide +kernel)

end RojocOS.Fs
