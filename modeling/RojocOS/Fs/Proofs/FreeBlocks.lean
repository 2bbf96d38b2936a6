/-
The allocator's view of the disk: the search for free blocks and the test
of a given range.

Both read the byte map at `avail_block_table_offset`, one byte for each
block, and a range is free if its bytes are zero and it ends within
`block_count` (`FreeRange`).

# The search

`search_free_blocks` is first fit. Its loop keeps a run of free blocks
that starts at `start_block`; a used byte ends the run, and the next one
starts behind it. No range that starts before `start_block` is free, as
each of them holds a used byte seen so far: with that in the invariant
the result is the least free range (`search_first_fit`).

# The test

`are_blocks_avaiblable` advances `addr` and adds `i` as well, so it looks
at every second byte and twice as far, and it does not know where the map
ends. For two blocks or more there is a map it gets wrong, and so there
is for a range that ends behind the map: `available_right_iff`. Ranges
the search returns are among those it refuses (`found_range_refused`).
-/
import RojocOS.Fs.Proofs.Tidy
import Mathlib.Order.Bounds.Basic

namespace RojocOS.Fs

open ByteMap Prog

variable {E : FsEnv} {d : FsDescriptor}

-- ==== the map

/-- The byte of block `b` in the allocator's map. -/
def mapByte (d : FsDescriptor) (disk : ByteMap) (b : Nat) : UInt8 :=
  disk (u64 (d.availBlockTableOffset + b))

/-- The `n` blocks from `s` on are within the map and free. -/
def FreeRange (d : FsDescriptor) (disk : ByteMap) (n s : Nat) : Prop :=
  s + n ≤ d.blockCount ∧ ∀ i, i < n → mapByte d disk (s + i) = 0

-- ==== the search

/-- The loop, with a run of `c` free blocks from `s` on and no free range
before it: it ends at the least free range, or with `-ENOSPC` if there is
none. -/
theorem searchFreeFrom_least (hE : E.Reliable) (n : Nat) :
    ∀ rest s c w, s + c + rest = d.blockCount → c ≤ n →
      (∀ i < c, mapByte d w.disk (s + i) = 0) → (∀ t < s, ¬ FreeRange d w.disk n t) →
      (∃ r io, searchFreeFrom E n rest s c (d.availBlockTableOffset + (s + c)) w
            = (.ok r, { w with io := io })
          ∧ IsLeast { t | FreeRange d w.disk n t } r)
        ∨ (∀ t, ¬ FreeRange d w.disk n t)
          ∧ ∃ io, searchFreeFrom E n rest s c (d.availBlockTableOffset + (s + c)) w
            = (.error (.err (-enospc)), { w with io := io }) := by
  intro rest
  induction rest with
  | zero =>
    intro s c w hlen hc hz hno
    unfold searchFreeFrom
    by_cases hcn : c = n
    · rw [if_pos hcn]
      subst hcn
      refine .inl ⟨s, w.io, rfl, ⟨by omega, hz⟩, fun t ht => ?_⟩
      exact Nat.le_of_not_lt fun hlt => hno t hlt ht
    · rw [if_neg hcn]
      refine .inr ⟨fun t ht => ?_, w.io, rfl⟩
      have hlt : t < s := by
        have := ht.1
        omega
      exact hno t hlt ht
  | succ rest ih =>
    intro s c w hlen hc hz hno
    unfold searchFreeFrom
    rcases Nat.lt_or_ge c n with hcn | hcn
    · have hbyte : slice w.disk (u64 (d.availBlockTableOffset + (s + c))) 1 0
          = mapByte d w.disk (s + c) := by
        rw [slice_of_lt (by omega), Nat.add_zero]
        rfl
      rw [if_pos hcn, bind_of_ok (fsdr_reliable hE _ _ _), hbyte]
      by_cases h0 : mapByte d w.disk (s + c) = 0
      · rw [if_neg (not_not.mpr h0)]
        refine ih s (c + 1) { w with io := w.io + 1 } (by omega) hcn (fun i hi => ?_) hno
        rcases Nat.lt_or_ge i c with hic | hic
        · exact hz i hic
        · rw [show i = c by omega]
          exact h0
      · -- a range that starts no later holds the byte just seen
        rw [if_pos h0]
        refine ih (s + (c + 1)) 0 { w with io := w.io + 1 } (by omega) (Nat.zero_le n)
          (fun i hi => absurd hi (Nat.not_lt_zero i)) fun t ht hfree => ?_
        rcases Nat.lt_or_ge t s with hts | hts
        · exact hno t hts hfree
        · refine h0 ?_
          have hb := hfree.2 (s + c - t) (by omega)
          rwa [show t + (s + c - t) = s + c by omega] at hb
    · obtain rfl : c = n := Nat.le_antisymm hc hcn
      rw [if_neg (by omega), if_pos rfl]
      refine .inl ⟨s, w.io, rfl, ⟨by omega, hz⟩, fun t ht => ?_⟩
      exact Nat.le_of_not_lt fun hlt => hno t hlt ht

theorem searchFreeBlocks_least (hE : E.Reliable) (n : Nat) (w : FsWorld) :
    (∃ r io, searchFreeBlocks E d n w = (.ok r, { w with io := io })
        ∧ IsLeast { t | FreeRange d w.disk n t } r)
      ∨ (∀ t, ¬ FreeRange d w.disk n t)
        ∧ ∃ io, searchFreeBlocks E d n w
          = (.error (.err (-enospc)), { w with io := io }) :=
  searchFreeFrom_least hE n d.blockCount 0 0 w (by omega) (Nat.zero_le n)
    (fun i hi => absurd hi (Nat.not_lt_zero i)) fun t ht => absurd ht (Nat.not_lt_zero t)

/-- With a disk that works, for every map, every number of blocks and
every `n`: `search_free_blocks` returns `s` exactly if `s` is the least
start of a free range, and `-ENOSPC` exactly if there is none. -/
theorem search_first_fit (hE : E.Reliable) (d : FsDescriptor) (n : Nat) (w : FsWorld) :
    (∀ s, (∃ w', searchFreeBlocks E d n w = (.ok s, w'))
        ↔ IsLeast { t | FreeRange d w.disk n t } s)
      ∧ ((∃ w', searchFreeBlocks E d n w = (.error (.err (-enospc)), w'))
        ↔ ∀ t, ¬ FreeRange d w.disk n t) := by
  rcases searchFreeBlocks_least hE n w with ⟨r, io, heq, hleast⟩ | ⟨hnone, io, heq⟩
  · rw [heq]
    refine ⟨fun s => ⟨?_, fun hs => ?_⟩, iff_of_false ?_ fun hnone => hnone r hleast.1⟩
    · rintro ⟨w', hw⟩
      cases hw
      exact hleast
    · exact ⟨_, by rw [hs.unique hleast]⟩
    · rintro ⟨w', hw⟩
      cases hw
  · rw [heq]
    refine ⟨fun s => iff_of_false ?_ fun hs => hnone s hs.1, iff_of_true ⟨_, rfl⟩ hnone⟩
    rintro ⟨w', hw⟩
    cases hw

/-- On an empty map two blocks are found at the start. -/
theorem search_first_fit_blank : IsLeast { t | FreeRange fsdesc blank.disk 2 t } 0 :=
  ((search_first_fit plainEnv_reliable fsdesc 2 blank).1 0).mp
    ⟨_, eq_of_toOption (by decide +kernel)⟩

-- ==== the test

theorem blocksAvailFrom_runs (hE : E.Reliable) (s : Nat) :
    ∀ n i addr w, ∃ v io, v ≤ 1
      ∧ blocksAvailFrom E s n i addr w = (.ok v, { w with io := io }) := by
  intro n
  induction n with
  | zero => exact fun i addr w => ⟨1, w.io, Nat.le_refl 1, rfl⟩
  | succ n ih =>
    intro i addr w
    unfold blocksAvailFrom
    rw [bind_of_ok (fsdr_reliable hE _ _ _)]
    split
    · exact ⟨0, w.io + 1, Nat.zero_le 1, rfl⟩
    · exact ih (i + 1) (addr + 1) { w with io := w.io + 1 }

/-- What the test looks at: every second byte, and `n` of them. -/
theorem areBlocksAvaiblable_eq (hE : E.Reliable) (d : FsDescriptor)
    (startBlock n : Nat) (w : FsWorld) :
    ∃ v io, areBlocksAvaiblable E d startBlock n w = (.ok v, { w with io := io })
      ∧ v ≤ 1
      ∧ (v = 1 ↔ ∀ k < n, mapByte d w.disk (sext startBlock + 2 * k) = 0) := by
  obtain ⟨v, io, hv, heq⟩ :=
    blocksAvailFrom_runs hE startBlock n 0 d.availBlockTableOffset w
  have hzero := blocksAvailFrom_ok startBlock n 0 _ w v _ heq
  have haddr : ∀ k, w.disk (u64 (d.availBlockTableOffset + sext startBlock + 0 + 2 * k))
      = mapByte d w.disk (sext startBlock + 2 * k) := by
    intro k
    rw [Nat.add_zero, Nat.add_assoc]
    rfl
  simp only [haddr] at hzero
  refine ⟨v, io, heq, hv, ⟨fun h1 k hk => ?_, fun hall => ?_⟩⟩
  · by_contra hne
    have := hzero.mpr ⟨k, hk, hne⟩
    omega
  · have hne : v ≠ 0 := by
      intro h0
      obtain ⟨k, hk, hne⟩ := hzero.mp h0
      exact hne (hall k hk)
    omega

/-- What the test is for: the `n` blocks from `startBlock`, an `int`, are
free and within the map. -/
def Available (d : FsDescriptor) (disk : ByteMap) (startBlock n : Nat) : Prop :=
  (∀ i, i < n → mapByte d disk (sext startBlock + i) = 0)
    ∧ i32 startBlock + n ≤ d.blockCount

/-- The test answers `1` if the blocks are available and `0`
otherwise. -/
def AnswersRight (E : FsEnv) (d : FsDescriptor) (startBlock n : Nat)
    (w : FsWorld) : Prop :=
  ∃ v w', areBlocksAvaiblable E d startBlock n w = (.ok v, w')
    ∧ (v = 1 ∧ Available d w.disk startBlock n
      ∨ v = 0 ∧ ¬ Available d w.disk startBlock n)

/-- A map with one used block, which the test steps over. -/
def holeWorld (d : FsDescriptor) (startBlock : Nat) : FsWorld :=
  { blank with
    disk := fun x =>
      if x = u64 (d.availBlockTableOffset + (sext startBlock + 1)) then 1 else 0 }

theorem holeWorld_even (d : FsDescriptor) (startBlock k : Nat) :
    mapByte d (holeWorld d startBlock).disk (sext startBlock + 2 * k) = 0 := by
  refine if_neg ?_
  unfold u64
  omega

/-- If the answer is right for every map, it is about one block at most,
and within the map. -/
theorem available_right_needs (hE : E.Reliable) {startBlock n : Nat}
    (h : ∀ w, AnswersRight E d startBlock n w) :
    n ≤ 1 ∧ i32 startBlock + n ≤ d.blockCount := by
  constructor
  · by_contra hn
    obtain ⟨v, io, heq, -, hone⟩ :=
      areBlocksAvaiblable_eq hE d startBlock n (holeWorld d startBlock)
    have hv := hone.mpr fun k _ => holeWorld_even d startBlock k
    obtain ⟨v', w', heq', hcase⟩ := h (holeWorld d startBlock)
    rw [heq] at heq'
    cases heq'
    rcases hcase with ⟨-, hav⟩ | ⟨h0, -⟩
    · have hhole := hav.1 1 (by omega)
      change (if _ then (1 : UInt8) else 0) = 0 at hhole
      rw [if_pos rfl] at hhole
      cases hhole
    · omega
  · obtain ⟨v, io, heq, -, hone⟩ := areBlocksAvaiblable_eq hE d startBlock n blank
    have hv := hone.mpr fun k _ => rfl
    obtain ⟨v', w', heq', hcase⟩ := h blank
    rw [heq] at heq'
    cases heq'
    rcases hcase with ⟨-, hav⟩ | ⟨h0, -⟩
    · exact hav.2
    · omega

/-- For every start and every `n`, and with a disk that works: the test
answers right on every map exactly if `n` is at most 1 and the range ends
within the map. In that case, with starts that fit in an `int`, it
accepts the ranges the search returns. -/
theorem available_right_iff (hE : E.Reliable) (d : FsDescriptor) (startBlock n : Nat) :
    ((∀ w, AnswersRight E d startBlock n w)
        ↔ n ≤ 1 ∧ i32 startBlock + n ≤ d.blockCount)
      ∧ (n ≤ 1 → d.blockCount ≤ 2 ^ 31 → ∀ w s w',
        searchFreeBlocks E d n w = (.ok s, w') →
        ∃ w'', areBlocksAvaiblable E d s n w' = (.ok 1, w'')) := by
  refine ⟨⟨available_right_needs hE, ?_⟩, ?_⟩
  · rintro ⟨hn, hend⟩ w
    obtain ⟨v, io, heq, hv, hone⟩ := areBlocksAvaiblable_eq hE d startBlock n w
    -- the byte of the only block is the only byte looked at
    have hiff : v = 1 ↔ Available d w.disk startBlock n := by
      rw [hone]
      refine ⟨fun hall => ⟨fun i hi => ?_, hend⟩, fun hav k hk => ?_⟩
      · have := hall i hi
        rwa [show 2 * i = i by omega] at this
      · rw [show 2 * k = k by omega]
        exact hav.1 k hk
    refine ⟨v, _, heq, ?_⟩
    by_cases h1 : v = 1
    · exact .inl ⟨h1, hiff.mp h1⟩
    · exact .inr ⟨by omega, fun hav => h1 (hiff.mpr hav)⟩
  · intro hn hsmall w s w' hrun
    rcases searchFreeBlocks_least hE n w with ⟨r, io, heq, hleast⟩ | ⟨-, io, heq⟩
    · rw [heq] at hrun
      cases hrun
      obtain ⟨v, io', heq', -, hone⟩ :=
        areBlocksAvaiblable_eq hE d s n { w with io := io }
      have hv : v = 1 := by
        refine hone.mpr fun k hk => ?_
        obtain ⟨hlen, hfree⟩ := hleast.1
        have hsext : sext s = s := by
          unfold sext u32
          rw [Nat.mod_eq_of_lt (by omega), if_pos (by omega)]
        rw [hsext, show 2 * k = k by omega]
        exact hfree k hk
      subst hv
      exact ⟨_, heq'⟩
    · rw [heq] at hrun
      cases hrun

/-- One block at the start of a free map. -/
theorem available_right_iff_one : AnswersRight plainEnv fsdesc 0 1 blank :=
  (available_right_iff plainEnv_reliable fsdesc 0 1).1.mpr (by decide) blank

/-- A disk whose map marks block `b` only. -/
def usedBlock (b : Nat) : FsWorld := { blank with disk := store zero b 1 1 }

/-- The search finds two blocks before block 2, which the test refuses;
and it accepts two blocks of which the second is in use, and two behind
the end of the map. -/
theorem found_range_refused :
    (searchFreeBlocks plainEnv fsdesc 2 (usedBlock 2)).1.toOption = some 0
      ∧ (areBlocksAvaiblable plainEnv fsdesc 0 2 (usedBlock 2)).1.toOption = some 0
      ∧ (areBlocksAvaiblable plainEnv fsdesc 0 2 (usedBlock 1)).1.toOption = some 1
      ∧ mapByte fsdesc (usedBlock 1).disk 1 = 1
      ∧ (areBlocksAvaiblable plainEnv fsdesc 16 2 blank).1.toOption = some 1 := by
  decide +kernel

end RojocOS.Fs
