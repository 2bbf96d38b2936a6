/-
How much of the caller's buffer the two calls change.

`fs_read` writes as many bytes as were asked for, at most. `fs_write`
encrypts in place the blocks by which the file grows, however short the
request; behind them it changes nothing.
-/
import RojocOS.Fs.Proofs.WriteReach

namespace RojocOS.Fs

open ByteMap Prog

variable {E : FsEnv} {d : FsDescriptor} {n n' size : Nat} {w w' : FsWorld}

/-- The buffer is as it was from byte `n` on. -/
def FillsWithin (n : Nat) (w w' : FsWorld) : Prop := ∀ x, n ≤ x → w'.buf x = w.buf x

theorem FillsWithin.discipline (E : FsEnv) (n : Nat) :
    Discipline E (fun _ _ _ => True) (FillsWithin n) :=
  .of_rest (fun _ _ _ => rfl) (fun h h' x hx => (h' x hx).trans (h x hx)) fun _ _ _ _ _ => rfl

theorem FillsWithin.mono (h : FillsWithin n w w') (hn : n ≤ n') : FillsWithin n' w w' :=
  fun x hx => h x (Nat.le_trans hn hx)

-- ==== read

theorem readLoop_within (e : ByteMap) (offset : Nat) (hs : size < 2 ^ 64) :
    ∀ fuel idx done, done ≤ size →
      Keeps (FillsWithin size) (readLoop E d e size offset fuel idx done) := by
  have hd := FillsWithin.discipline E size
  intro fuel
  induction fuel with
  | zero => exact fun _ _ _ => hd.stop _
  | succ fuel ih =>
    intro idx done hdone
    refine Keeps.ite (hd.bind (hd.walk.decryptBlock _ _) fun r => ?_) (hd.pure _)
    dsimp only
    generalize (if idx = u32 (offset / 4096) then offset % 4096 else 0) = from_
    have hleft : u64 (size + 2 ^ 64 - done) = size - done := by
      unfold u64
      omega
    have hn : done + min (4096 - from_) (u64 (size + 2 ^ 64 - done)) ≤ size := by
      rw [hleft]
      omega
    generalize min (4096 - from_) (u64 (size + 2 ^ 64 - done)) = n at hn
    refine hd.bind (fun w x hx => ?_) fun _ => ih _ _ hn
    exact copy_of_not_mem (by omega)

theorem fsRead_within (fuel ino size offset : Nat) :
    Keeps (FillsWithin size) (fsRead E d fuel ino size offset) := by
  have hd := FillsWithin.discipline E size
  unfold fsRead
  by_cases hmax : FS_IO_MAX_SIZE < size
  · rw [if_pos hmax]
    exact hd.stop _
  rw [if_neg hmax]
  refine hd.bind (hd.read _ _) fun e => Keeps.ite (hd.pure _) ?_
  have hclip : (if Entry.size e < u64 (size + offset) then Entry.size e - offset else size)
      ≤ size := by
    have hu : u64 (size + offset) ≤ size + offset := Nat.mod_le _ _
    split <;> omega
  unfold FS_IO_MAX_SIZE at hmax
  intro w
  exact (readLoop_within e offset (by omega) _ _ _ (Nat.zero_le _) w).mono hclip

-- ==== write

theorem writeLoop_within (index : Nat) : ∀ n i ctx,
    Keeps (FillsWithin (4096 * (i + n))) (writeLoop E d index n i ctx) := by
  intro n
  induction n with
  | zero => exact fun i ctx => (FillsWithin.discipline E _).pure _
  | succ n ih =>
    intro i ctx
    have hd := FillsWithin.discipline E (4096 * (i + (n + 1)))
    have hrest := ih (i + 1) (nextCtx E ctx)
    rw [Nat.add_right_comm, Nat.add_assoc i n 1] at hrest
    refine hd.bind (hd.bind (fun w => hd.refl w) fun w => ?_) fun _ => hrest
    refine hd.bind (fun w x hx => ?_) fun _ => ?_
    · exact if_neg (by omega)
    · exact Keeps.ignoreErr (hd.walk.encryptBlock (blockIn_any _ _) _ _)

theorem fsWrite_within (ino size offset : Nat) (w : FsWorld) :
    FillsWithin (4096 * newBlocks (readEntry w.disk ino) size offset) w
      (fsWrite E d ino size offset w).2 := by
  have hd := FillsWithin.discipline E (4096 * newBlocks (readEntry w.disk ino) size offset)
  unfold fsWrite
  by_cases hmax : FS_IO_MAX_SIZE < size
  · rw [if_pos hmax]
    exact hd.refl w
  rw [if_neg hmax]
  have hread := hd.read (entryAddr ino) 304 w
  rcases fsdr_outcome (entryAddr ino) 304 w with h | ⟨-, h⟩
  case inr =>
    rw [h] at hread
    rw [bind_of_error h]
    exact hread
  case inl =>
    rw [h] at hread
    rw [bind_of_ok h]
    refine hd.trans hread ?_
    have he : slice w.disk (u64 (entryAddr ino)) 304 = readEntry w.disk ino := rfl
    rw [he]
    by_cases hoff : Entry.size (readEntry w.disk ino) < offset
    · rw [if_pos hoff]
      exact hd.refl _
    rw [if_neg hoff]
    have hnew : subU32 (sizeToBlock (u64 (offset + size))) (Entry.blockCount (readEntry w.disk ino))
        = newBlocks (readEntry w.disk ino) size offset := rfl
    rw [hnew]
    generalize newBlocks (readEntry w.disk ino) size offset = n at hd
    refine hd.bind (hd.walk.probeGrowth _ _) (fun aba => ?_) _
    refine hd.bind ?_ fun block => hd.bind ?_ fun e => hd.bind ?_ fun ctx => hd.bind ?_ fun e' => ?_
    · exact fun w x _ => congrFun
        (mergePartial_gentle (.inr (Nat.le_add_left _ _)) _ w).1 x
    · exact hd.walk.relocate hd.ignores (fun _ _ _ _ => rfl) (blockIn_any _) _ _ _ _
    · exact hd.walk.writePartial _ _ _ fun _ => blockIn_any _ _
    · refine Keeps.ite (hd.bind ?_ fun _ => hd.pure _) (hd.pure _)
      have hloop := writeLoop_within (E := E) (d := d) (Entry.startBlock e + sizeToBlock offset) n 0 ctx
      rwa [Nat.zero_add] at hloop
    · refine hd.bind (hd.write _ _ _ trivial) fun _ => ?_
      refine hd.bind (Keeps.when hd.refl ?_) fun _ => hd.pure _
      exact hd.walk.clearAvailability _ _ _ fun _ _ _ => trivial

end RojocOS.Fs
