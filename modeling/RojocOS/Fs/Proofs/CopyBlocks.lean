/-
`copy_block` between two keys.

Both contexts of `copy_block` step once for each block, so the copy of the
block `m` places on is sealed under the counter that a reader of the
destination has reached there (`Copied`). A reader who goes through the
destination with one context therefore sees what one who went through the
source saw (`copy_block_round_trip`).

The blocks have to be ones for which the disk has room. The usage byte of
block 84112 is the first byte of the data area, so a copy to that block
changes block 0.
-/
import RojocOS.Fs.Proofs.WriteFrame

namespace RojocOS.Fs

open ByteMap Prog

variable {E : FsEnv} {src dst n : Nat} {ctxDec ctxEnc : AesCtx} {disk disk' : ByteMap}
  {w w' : FsWorld}
variable {index x : Nat} {ctx : AesCtx} {plain : ByteMap}

-- ==== one block

theorem decryptBlock_ok {r : AesCtx × ByteMap} (hi : index < 2 ^ 20)
    (h : decryptBlock E fsdesc index ctx w = (.ok r, w')) :
    r = (nextCtx E ctx, opened E w.disk index ctx) ∧ w'.disk = w.disk := by
  unfold decryptBlock at h
  rw [bind_ok] at h
  obtain ⟨buffer, v, hread, h⟩ := h
  obtain ⟨rfl, rfl⟩ := fsdr_ok hread
  rw [dataAddr hi] at h
  cases h
  exact ⟨rfl, rfl⟩

theorem encryptBlock_ok {buffer : ByteMap} (hi : index < 84112)
    (h : encryptBlock E fsdesc index ctx buffer w = (.ok (), w')) :
    w'.disk = putBlock E w.disk index ctx buffer := by
  unfold encryptBlock at h
  rw [bind_ok] at h
  obtain ⟨_, v, hdata, husage⟩ := h
  have haddr : u64 (fsdesc.blockUsageOffset + u32 index) = 4876 + index := by
    simp only [fsdesc, u64, u32]
    omega
  rw [fsdw_ok husage, fsdw_ok hdata, haddr, dataAddr (by omega)]
  rfl

theorem putBlock_usage (disk : ByteMap) (index : Nat) (ctx : AesCtx) (plain : ByteMap) :
    putBlock E disk index ctx plain (4876 + index) = 1 :=
  copy_of_mem (by omega)

theorem putBlock_rest
    (hdata : ¬ (88988 + index * 4096 ≤ x ∧ x < 88988 + (index + 1) * 4096))
    (husage : x ≠ 4876 + index) : putBlock E disk index ctx plain x = disk x :=
  (copy_of_not_mem (by omega)).trans (copy_of_not_mem (by omega))

/-- Sealed and opened under the same context. -/
theorem opened_of_sealed
    (h : Sealed E disk index ctx plain) (hplain : ∀ x, 4096 ≤ x → plain x = 0) :
    opened E disk index ctx = plain := by
  have hslice : slice disk (88988 + index * 4096) 4096
      = slice (aesCtrXcryptBuffer E ctx plain 0 4096).2 0 4096 := by
    funext i
    unfold slice
    by_cases hi : i < 4096
    · rw [if_pos hi, if_pos hi, Nat.zero_add, h i hi]
    · rw [if_neg hi, if_neg hi]
  unfold opened
  rw [hslice]
  funext x
  by_cases hx : x < 4096
  · exact xcrypt_xcrypt ctx plain hx
  · rw [hplain x (Nat.le_of_not_lt hx)]
    show (if 0 ≤ x ∧ x < 0 + 4096 then _ else slice _ 0 4096 x) = 0
    rw [if_neg (by omega)]
    exact if_neg hx

theorem opened_past (hx : 4096 ≤ x) : opened E disk index ctx x = 0 := by
  show (if 0 ≤ x ∧ x < 0 + 4096 then _ else slice _ _ 4096 x) = 0
  rw [if_neg (by omega)]
  exact if_neg (by omega)

-- ==== the loop

/-- What `copy_block` does to the disk. -/
structure Copied (E : FsEnv) (src dst n : Nat) (ctxDec ctxEnc : AesCtx) (disk disk' : ByteMap) :
    Prop where
  sealed : ∀ m < n, Sealed E disk' (dst + m) ((nextCtx E)^[m] ctxEnc)
    (opened E disk (src + m) ((nextCtx E)^[m] ctxDec))
  usage : ∀ m < n, disk' (4876 + (dst + m)) = 1
  rest : ∀ x, ¬ (88988 + dst * 4096 ≤ x ∧ x < 88988 + (dst + n) * 4096) →
    ¬ (4876 + dst ≤ x ∧ x < 4876 + (dst + n)) → disk' x = disk x

/-- One block, and then the others. -/
theorem Copied.cons (hd : dst + (n + 1) ≤ 84112)
    (hdis : src + (n + 1) ≤ dst ∨ dst + (n + 1) ≤ src)
    (h : Copied E (src + 1) (dst + 1) n (nextCtx E ctxDec) (nextCtx E ctxEnc)
      (putBlock E disk dst ctxEnc (opened E disk src ctxDec)) disk') :
    Copied E src dst (n + 1) ctxDec ctxEnc disk disk' := by
  have hput := putBlock_keeps (E := E) disk (show dst < 84112 by omega) ctxEnc
    (opened E disk src ctxDec)
  refine ⟨fun m hm => ?_, fun m hm => ?_, fun x h1 h2 => ?_⟩
  · cases m with
    | zero =>
      intro x hx
      rw [h.rest _ (by omega) (by omega)]
      exact putBlock_seals disk (by omega) ctxEnc _ x hx
    | succ m =>
      have hm' := h.sealed m (by omega)
      -- the block still to be copied is not the one just written
      rw [opened_keep hput (by omega), Nat.add_right_comm dst, Nat.add_right_comm src] at hm'
      exact hm'
  · cases m with
    | zero =>
      rw [Nat.add_zero, h.rest (4876 + dst) (by omega) (by omega)]
      exact putBlock_usage disk dst ctxEnc _
    | succ m =>
      have hm' := h.usage m (Nat.lt_of_succ_lt_succ hm)
      rwa [Nat.add_right_comm dst] at hm'
  · have hend : dst + 1 + n = dst + (n + 1) := by omega
    rw [h.rest x (fun hx => h1 ⟨by omega, hend ▸ hx.2⟩) (by omega)]
    exact putBlock_rest (fun hx => h1 ⟨hx.1, Nat.lt_of_lt_of_le hx.2 (by omega)⟩) (by omega)

theorem copyBlockFrom_copies (n : Nat) : ∀ {i : Nat} {ctxDec ctxEnc : AesCtx}
    {w w' : FsWorld}, src + i + n ≤ 2 ^ 20 → dst + i + n ≤ 84112 →
    (src + i + n ≤ dst + i ∨ dst + i + n ≤ src + i) →
    copyBlockFrom E fsdesc src dst n i ctxDec ctxEnc w = (.ok (), w') →
    Copied E (src + i) (dst + i) n ctxDec ctxEnc w.disk w'.disk := by
  induction n with
  | zero =>
    intro i ctxDec ctxEnc w w' _ _ _ h
    cases h
    exact ⟨nofun, nofun, fun _ _ _ => rfl⟩
  | succ n ih =>
    intro i ctxDec ctxEnc w w' hs hd hdis h
    rw [copyBlockFrom, bind_ok] at h
    obtain ⟨r, v, hdec, h⟩ := h
    obtain ⟨rfl, hv⟩ := decryptBlock_ok (by omega) hdec
    rw [bind_ok] at h
    obtain ⟨_, z, henc, h⟩ := h
    have hz := encryptBlock_ok (by omega) henc
    have hrest := ih (by omega) (by omega) (by omega) h
    rw [hz, hv] at hrest
    exact Copied.cons hd hdis hrest

-- ==== reading

/-- `n` blocks decrypted in order with one context. -/
def decryptBlocks (E : FsEnv) (d : FsDescriptor) : Nat → Nat → AesCtx → FsM (List ByteMap)
  | 0, _, _ => pure []
  | n + 1, index, ctx => do
      let (ctx, buffer) ← decryptBlock E d index ctx
      let rest ← decryptBlocks E d n (index + 1) ctx
      pure (buffer :: rest)

theorem decryptBlocks_eq (hE : E.Reliable) (n : Nat) : ∀ {index : Nat} {ctx : AesCtx}
    {w : FsWorld},
    index + n ≤ 2 ^ 20 → (decryptBlocks E fsdesc n index ctx w).1
      = .ok ((List.range n).map fun m => opened E w.disk (index + m) ((nextCtx E)^[m] ctx)) := by
  induction n with
  | zero => intro index ctx w _; rfl
  | succ n ih =>
    intro index ctx w hle
    have hdec := decryptBlock_eq hE (show index < 2 ^ 20 by omega) ctx w
    have hrest := @ih (index + 1) (nextCtx E ctx) { w with io := w.io + 1 } (by omega)
    rw [decryptBlocks, bind_of_ok hdec]
    dsimp only
    rcases hr : decryptBlocks E fsdesc n (index + 1) (nextCtx E ctx) { w with io := w.io + 1 }
      with ⟨r, v⟩
    rw [hr] at hrest
    cases hrest
    rw [bind_of_ok hr, List.range_succ_eq_map, List.map_cons, List.map_map]
    refine congrArg Except.ok (congrArg (_ :: ·) (List.map_congr_left fun m _ => ?_))
    rw [Nat.add_right_comm]
    rfl

/-- After `copy_block` the destination decrypts to what the source did, and
nothing has changed but the destination blocks and their usage bytes. -/
theorem copy_block_round_trip (E : FsEnv) (srcKey dstKey : ByteMap) (srcIv dstIv : Nat)
    (hsrc : src + n ≤ 2 ^ 20) (hdst : dst + n ≤ 84112) (hdis : src + n ≤ dst ∨ dst + n ≤ src)
    (h : copyBlock E fsdesc src srcKey srcIv dst dstKey dstIv n w = (.ok (), w')) :
    (∃ plains : List ByteMap, plains.length = n
      ∧ (decryptBlocks (E.failing allWell) fsdesc n src (aesInitCtxIv E srcKey srcIv) w).1 = .ok plains
      ∧ (decryptBlocks (E.failing allWell) fsdesc n dst (aesInitCtxIv E dstKey dstIv) w').1 = .ok plains)
    ∧ (∀ k < n, ∀ x < 4096,
      w'.disk (88988 + (src + k) * 4096 + x) = w.disk (88988 + (src + k) * 4096 + x))
    ∧ (∀ k < n, w'.disk (4876 + (dst + k)) = 1)
    ∧ ∀ x, ¬ (88988 + dst * 4096 ≤ x ∧ x < 88988 + (dst + n) * 4096) →
      ¬ (4876 + dst ≤ x ∧ x < 4876 + (dst + n)) → w'.disk x = w.disk x := by
  have hc := copyBlockFrom_copies n (i := 0) hsrc hdst hdis h
  refine ⟨⟨_, ?_, decryptBlocks_eq (reliable_allWell E) n hsrc, ?_⟩,
    fun k hk x hx => hc.rest _ (by omega) (by omega), hc.usage, hc.rest⟩
  · rw [List.length_map, List.length_range]
  · rw [decryptBlocks_eq (reliable_allWell E) n (Nat.le_trans hdst (by decide))]
    refine congrArg Except.ok (List.map_congr_left fun m hm => ?_)
    exact opened_of_sealed (hc.sealed m (List.mem_range.mp hm)) fun x hx => opened_past hx

/-- Two blocks moved to blocks 4 and 5 and another IV. -/
theorem copy_block_round_trip_two : ∃ w',
    copyBlock plainEnv fsdesc 0 zero 0 4 zero 5 2 (start plainEnv) = (.ok (), w')
      ∧ ∃ plains : List ByteMap, plains.length = 2
        ∧ (decryptBlocks (plainEnv.failing allWell) fsdesc 2 0 (aesInitCtxIv plainEnv zero 0)
            (start plainEnv)).1 = .ok plains
        ∧ (decryptBlocks (plainEnv.failing allWell) fsdesc 2 4 (aesInitCtxIv plainEnv zero 5) w').1
            = .ok plains := by
  obtain ⟨w', hrun, -⟩ := copyBlockFrom_seals plainEnv_reliable 0 4 2 0
    (aesInitCtxIv plainEnv zero 0) (aesInitCtxIv plainEnv zero 5) (start plainEnv)
    (by decide) (by decide) (by decide)
  exact ⟨w', hrun, (copy_block_round_trip plainEnv zero zero 0 5 (by decide) (by decide) (by decide)
    hrun).1⟩

/-- The usage byte of block 84112 is the first byte of block 0. -/
theorem copy_block_hits_source : ∃ w',
    copyBlock plainEnv fsdesc 0 zero 0 84112 zero 0 1 blank = (.ok (), w')
      ∧ w'.disk 88988 = 1 ∧ blank.disk 88988 = 0 :=
  ⟨_, rfl, by decide +kernel, rfl⟩

end RojocOS.Fs
