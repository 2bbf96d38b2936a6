/-
Where the keys of the files come from.

# The defect

`fs_write` draws a key and an IV only when it relocates a file, that is
when `are_blocks_avaiblable` finds a nonzero byte behind it. The first
write to a fresh file finds none, so the file keeps the key and IV of its
cleared entry, all zero (`first_write_keyless`).

# What does hold

Draws are handed out in order, 272 bytes each, and an entry's key is only
ever replaced by the draw just made. So in a run whose every write either
leaves the file empty, or finds it non-empty, or is forced to relocate
it, each live non-empty file holds a draw made after its inode was
allocated, and no two hold the same one (`keys_drawn`). The invariant is
`Keyring`; the history it speaks about, the position of the generator at
each inode's last allocation, is carried along the run (`DatedRun`).
-/
import RojocOS.Fs.Proofs.FreeBlocks
import RojocOS.Fs.Proofs.Maps

namespace RojocOS.Fs

open ByteMap Prog

variable {E : FsEnv} {draw' : Nat → Nat} {e e' : ByteMap} {i ino offset r' size v : Nat}
  {op : FsOp} {w' : FsWorld}

-- ==== the probe

/-- What `aba` is, before anything is written. -/
theorem probeGrowth_eq (hE : E.Reliable) (e : ByteMap) (new : Nat) (w : FsWorld) :
    ∃ aba io, probeGrowth E fsdesc e new w = (.ok aba, { w with io := io })
      ∧ (aba = some 0 ↔ Crowded w.disk e new) := by
  have hrun : ∃ aba io, probeGrowth E fsdesc e new w = (.ok aba, { w with io := io }) := by
    unfold probeGrowth
    split
    · obtain ⟨v, io, -, hv⟩ := blocksAvailFrom_runs hE
        (Entry.startBlock e + Entry.blockCount e) new 0 fsdesc.availBlockTableOffset w
      exact ⟨some v, io, (bind_of_ok hv).trans rfl⟩
    · exact ⟨none, w.io, rfl⟩
  obtain ⟨aba, io, hprobe⟩ := hrun
  exact ⟨aba, io, hprobe, probeGrowth_ok hprobe⟩

-- ==== the invariant

/-- The keys of a table, with the generator at `r`, when `born i` is
where it stood at the last allocation of inode `i` and `draw i` is where
the key of file `i` was taken from. -/
structure Keyring (E : FsEnv) (r : Nat) (born draw : Nat → Nat) (disk : ByteMap) :
    Prop where
  birth : ∀ i, born i ≤ r
  dead : ∀ i, 1 ≤ i → i < 16 → Entry.ref (entryAt disk i) = 0 →
    Entry.size (entryAt disk i) = 0
  drawn : ∀ i, 1 ≤ i → i < 16 → 0 < Entry.size (entryAt disk i) →
    born i ≤ draw i ∧ draw i + 272 ≤ r ∧ DrawnAt E (draw i) (entryAt disk i)
  apart : ∀ i j, 1 ≤ i → i < 16 → 1 ≤ j → j < 16 → i ≠ j →
    0 < Entry.size (entryAt disk i) → 0 < Entry.size (entryAt disk j) →
    draw i + 272 ≤ draw j ∨ draw j + 272 ≤ draw i

namespace Keyring

variable {r : Nat} {born draw : Nat → Nat} {disk disk' : ByteMap}

section

variable (h : Keyring E r born draw disk)

include h

theorem later (hr : r ≤ r') : Keyring E r' born draw disk := by
  refine ⟨fun i => Nat.le_trans (h.birth i) hr, h.dead, fun i h1 h16 hs => ?_, h.apart⟩
  obtain ⟨hb, hd, hk⟩ := h.drawn i h1 h16 hs
  exact ⟨hb, Nat.le_trans hd hr, hk⟩

/-- Only the entries from 1 on matter, and they start at byte 316. -/
theorem congr (hd : ∀ a, Low a → 16 ≤ a → disk' a = disk a) :
    Keyring E r born draw disk' := by
  have he : ∀ i, 1 ≤ i → i < 16 → entryAt disk' i = entryAt disk i := by
    intro i h1 h16
    refine entryAt_congr fun a ha hb => hd a (entryAddr_low h16 hb) ?_
    unfold entryAddr at ha
    omega
  refine ⟨h.birth, ?_, ?_, ?_⟩
  · intro i h1 h16
    rw [he i h1 h16]
    exact h.dead i h1 h16
  · intro i h1 h16
    rw [he i h1 h16]
    exact h.drawn i h1 h16
  · intro i j hi hi' hj hj'
    rw [he i hi hi', he j hj hj']
    exact h.apart i j hi hi' hj hj'

/-- A new date for a file without content. -/
theorem allocate (hi : Entry.size (entryAt disk i) = 0) :
    Keyring E r (fun j => if (j : Int) = (i : Int) then r else born j) draw disk := by
  refine ⟨fun j => ?_, h.dead, fun j h1 h16 hs => ?_, h.apart⟩
  · show (if (j : Int) = (i : Int) then r else born j) ≤ r
    split
    · exact Nat.le_refl r
    · exact h.birth j
  · have hne : ¬ (j : Int) = (i : Int) := by
      intro hji
      rw [Int.natCast_inj.mp hji] at hs
      omega
    rw [if_neg hne]
    exact h.drawn j h1 h16 hs

/-- Replacing the entry of `ino` by one whose key, if it needs one, is
the draw at `draw' ino`; everything the others have stays. -/
theorem writeEntry (hother : ∀ j ≠ ino, draw' j = draw j)
    (hdead : 1 ≤ ino → ino < 16 → Entry.ref e = 0 → Entry.size e = 0)
    (hdrawn : 1 ≤ ino → ino < 16 → 0 < Entry.size e →
      born ino ≤ draw' ino ∧ draw' ino + 272 ≤ r ∧ DrawnAt E (draw' ino) e
        ∧ ∀ j, 1 ≤ j → j < 16 → j ≠ ino → 0 < Entry.size (entryAt disk j) →
          draw' ino + 272 ≤ draw j ∨ draw j + 272 ≤ draw' ino) :
    Keyring E r born draw' (copy disk (entryAddr ino) e 0 304) := by
  have hsame : ∀ j ≠ ino,
      entryAt (copy disk (entryAddr ino) e 0 304) j = entryAt disk j :=
    fun j hj => entryAt_copy_other (Ne.symm hj)
  have href : Entry.ref (entryAt (copy disk (entryAddr ino) e 0 304) ino) = Entry.ref e :=
    load_entryAt_copy (by omega)
  have hsize : Entry.size (entryAt (copy disk (entryAddr ino) e 0 304) ino)
      = Entry.size e := load_entryAt_copy (by omega)
  have hbytes : ∀ x < 304, entryAt (copy disk (entryAddr ino) e 0 304) ino x = e x := by
    intro x hx
    unfold entryAt
    rw [slice_of_lt hx, copy_of_mem (by omega), Nat.zero_add, Nat.add_sub_cancel_left]
  refine ⟨h.birth, ?_, ?_, ?_⟩
  · intro i h1 h16
    by_cases hi : i = ino
    · subst hi
      rw [href, hsize]
      exact hdead h1 h16
    · rw [hsame i hi]
      exact h.dead i h1 h16
  · intro i h1 h16
    by_cases hi : i = ino
    · subst hi
      rw [hsize]
      intro hs
      obtain ⟨hb, hd, hk, -⟩ := hdrawn h1 h16 hs
      refine ⟨hb, hd, ?_, ?_⟩
      · rw [← hk.1]
        exact slice_congr fun x _ hx => hbytes x (by omega)
      · rw [← hk.2]
        exact load_congr fun x _ hx => hbytes x (by omega)
    · rw [hsame i hi, hother i hi]
      exact h.drawn i h1 h16
  · intro i j hi hi' hj hj' hne
    by_cases hii : i = ino
    · subst hii
      rw [hsize, hsame j (Ne.symm hne), hother j (Ne.symm hne)]
      intro hs hsj
      exact (hdrawn hi hi' hs).2.2.2 j hj hj' (Ne.symm hne) hsj
    · rw [hsame i hii, hother i hii]
      by_cases hjj : j = ino
      · subst hjj
        rw [hsize]
        intro hsi hs
        exact ((hdrawn hj hj' hs).2.2.2 i hi hi' hii hsi).symm
      · rw [hsame j hjj, hother j hjj]
        exact h.apart i j hi hi' hj hj' hne

/-- A reference for a free entry. -/
theorem alloc (h1 : 1 ≤ i) (h16 : i < 16)
    (href : Entry.ref (entryAt disk i) = 0) (v : Nat) :
    Keyring E r born draw (copy disk (entryAddr i) (Entry.setRef (entryAt disk i) v) 0 304) := by
  have hsize : Entry.size (Entry.setRef (entryAt disk i) v) = 0 :=
    (setRef_fields _ _).2.1.trans (h.dead i h1 h16 href)
  exact h.writeEntry (fun _ _ => rfl) (fun _ _ _ => hsize) (fun _ _ hs => absurd hs (by omega))

theorem unref (hpos : 0 < Entry.ref (entryAt disk v)) :
    Keyring E r born draw (unrefDisk disk v) := by
  have h256 : Entry.ref (entryAt disk v) < 256 := load_lt _ _ 1
  refine h.writeEntry (fun _ _ => rfl) (fun _ _ => ?_) (fun h1 h16 hs => ?_)
  · unfold releasedEntry
    split
    · exact fun _ => load_eq_zero.mpr fun _ _ _ => rfl
    · intro hz
      rw [(setRef_fields _ _).1] at hz
      omega
  · have hone : Entry.ref (entryAt disk v) ≠ 1 := by
      intro h1
      have hz : Entry.size (releasedEntry (entryAt disk v)) = 0 := by
        unfold releasedEntry
        rw [if_pos h1]
        exact load_eq_zero.mpr fun _ _ _ => rfl
      omega
    unfold releasedEntry at hs ⊢
    rw [if_neg hone] at hs ⊢
    rw [(setRef_fields _ _).2.1] at hs
    obtain ⟨hb, hd, hk⟩ := h.drawn v h1 h16 hs
    refine ⟨hb, hd, hk.congr fun x hx => store_of_not_mem (by omega), ?_⟩
    intro j hj hj' hne hsj
    exact h.apart v j h1 h16 hj hj' (Ne.symm hne) hs hsj

end

end Keyring

-- ==== the runs

/-- The writes after which every non-empty file has a drawn key. A write
that goes through does not drop a block of the file, and then either
concerns no file, or leaves the file empty, or finds a live file that is
not empty or that has to move. -/
def Keyed (w : FsWorld) : FsOp → Prop
  | .write ino _ size offset => ino < 2 ^ 32
      ∧ (FS_IO_MAX_SIZE < size ∨ Entry.size (entryAt w.disk ino) < offset
        ∨ (Entry.blockCount (entryAt w.disk ino) ≤ sizeToBlock (u64 (offset + size))
          ∧ (ino = 0 ∨ 16 ≤ ino ∨ u64 (offset + size) = 0
            ∨ (Live w ino ∧ (0 < Entry.size (entryAt w.disk ino)
              ∨ Crowded w.disk (entryAt w.disk ino)
                  (subU32 (sizeToBlock (u64 (offset + size)))
                    (Entry.blockCount (entryAt w.disk ino))))))))
  | _ => True

/-- The position of the generator at each inode's last allocation, after
one more call. -/
def bornAfter (E : FsEnv) (w : FsWorld) (born : Nat → Nat) (op : FsOp) : Nat → Nat :=
  match op, (op.exec E w).1 with
  | .allocInode, .ok i => fun j => if (j : Int) = i then w.rng else born j
  | _, _ => born

/-- A run that remembers the allocations. -/
def DatedRun (E : FsEnv) (C : FsWorld → FsOp → Prop) :
    FsWorld × (Nat → Nat) → FsWorld × (Nat → Nat) → Prop :=
  Relation.ReflTransGen fun p q =>
    ∃ op, C p.1 op ∧ FsStep E p.1 op q.1 ∧ q.2 = bornAfter E p.1 p.2 op

/-- The dates after a list of calls. -/
def bornAll (E : FsEnv) (w : FsWorld) (born : Nat → Nat) : List FsOp → Nat → Nat
  | [] => born
  | op :: ops => bornAll E (op.exec E w).2 (bornAfter E w born op) ops

theorem runAll_dated {C : FsWorld → FsOp → Prop} :
    ∀ (ops : List FsOp) (w : FsWorld) (born : Nat → Nat), AllMeet E C w ops →
      DatedRun E C (w, born) (runAll E w ops, bornAll E w born ops) := by
  intro ops
  induction ops with
  | nil => exact fun w born _ => Relation.ReflTransGen.refl
  | cons op ops ih =>
    intro w born ⟨hc, hr, hrest⟩
    exact Relation.ReflTransGen.head ⟨op, hc, ⟨rfl, hr⟩, rfl⟩ (ih _ _ hrest)

/-- Every live file with content holds 272 bytes the generator gave out
after its inode was allocated, and no two hold the same ones. -/
def KeysDrawn (E : FsEnv) (w : FsWorld) (born : Nat → Nat) : Prop :=
  ∃ draw : Nat → Nat,
    (∀ i, Live w i → 0 < Entry.size (entryAt w.disk i) →
      born i ≤ draw i ∧ draw i + 272 ≤ w.rng ∧ DrawnAt E (draw i) (entryAt w.disk i))
    ∧ ∀ i j, Live w i → Live w j → i ≠ j → 0 < Entry.size (entryAt w.disk i) →
        0 < Entry.size (entryAt w.disk j) → draw i + 272 ≤ draw j ∨ draw j + 272 ≤ draw i

section Steps

variable {w : FsWorld} {born draw : Nat → Nat}

theorem fsAllocInode_keyring (hE : E.Reliable) (h : Keyring E w.rng born draw w.disk) :
    Keyring E (FsOp.allocInode.exec E w).2.rng (bornAfter E w born .allocInode) draw
      (FsOp.allocInode.exec E w).2.disk := by
  rcases fsAllocInode_cases hE w with ⟨i, io, h1, h16, href, hrun⟩ | ⟨e, io, hrun, -⟩
  case inr =>
    have hexec : FsOp.allocInode.exec E w = (.error e, { w with io := io }) :=
      bind_of_error hrun
    unfold bornAfter
    rw [hexec]
    exact h
  have hexec : FsOp.allocInode.exec E w = (.ok (i : Int), { w with
      disk := copy w.disk (entryAddr i) (Entry.setRef (entryAt w.disk i)
        (Entry.ref (entryAt w.disk i) + 1)) 0 304
      io := io }) := (bind_of_ok hrun).trans rfl
  unfold bornAfter
  rw [hexec]
  exact (h.alloc h1 h16 href _).allocate ((load_entryAt_copy (by omega)).trans
    ((setRef_fields _ _).2.1.trans (h.dead i h1 h16 href)))

/-- A write that goes through keeps the ring, with the new draw for its
file when one was made. -/
theorem Wrote.keyring
    (hw : Wrote E ino size offset w w' e') (h : Keyring E w.rng born draw w.disk)
    (hcnt : Entry.blockCount (entryAt w.disk ino) ≤ sizeToBlock (u64 (offset + size)))
    (hc : ino = 0 ∨ 16 ≤ ino ∨ u64 (offset + size) = 0
      ∨ (Live w ino ∧ (0 < Entry.size (entryAt w.disk ino) ∨ Moves w ino size offset))) :
    ∃ draw', Keyring E w'.rng born draw' w'.disk := by
  have htable := hw.table_above 16 (by decide) fun hmoves =>
    Nat.le_trans (Nat.add_le_add_left hcnt _) (hw.moved hmoves).1
  have hlen : u64 (offset + size) = 0 → Entry.size e' = 0 := hw.length.trans
  have hdead : 1 ≤ ino → ino < 16 → Entry.ref e' = 0 → Entry.size e' = 0 := by
    intro h1 h16 hz
    have href : Entry.ref e' = Entry.ref (entryAt w.disk ino) :=
      load_congr fun x h1 h2 => hw.front x (by omega)
    rw [href] at hz
    rcases hc with h0 | h0 | h0 | ⟨hlive, _⟩
    · omega
    · omega
    · exact hlen h0
    · have := hlive.2
      omega
  by_cases hmoves : Moves w ino size offset
  · -- the fresh draw lies past all the others
    obtain ⟨-, hdrawn, hrng⟩ := hw.moved hmoves
    refine ⟨fun j => if j = ino then w.rng else draw j, ?_⟩
    refine ((h.later (by omega)).writeEntry (fun j hj => if_neg hj) hdead
      fun h1 h16 hs => ?_).congr htable
    rw [if_pos rfl]
    refine ⟨h.birth ino, Nat.le_of_eq hrng.symm, hdrawn, fun j hj hj' _ hsj => ?_⟩
    exact .inr (h.drawn j hj hj' hsj).2.1
  · obtain ⟨hkeep, hrng⟩ := hw.stay hmoves
    rw [hrng]
    refine ⟨draw, (h.writeEntry (fun _ _ => rfl) hdead fun h1 h16 hs => ?_).congr htable⟩
    have hold : 0 < Entry.size (entryAt w.disk ino) := by
      rcases hc with h0 | h0 | h0 | ⟨_, h0 | h0⟩
      · omega
      · omega
      · have := hlen h0
        omega
      · exact h0
      · exact absurd h0 hmoves
    obtain ⟨hb, hd, hk⟩ := h.drawn ino h1 h16 hold
    refine ⟨hb, hd, hk.congr fun x hx => hkeep x (.inr hx), fun j hj hj' hne hsj => ?_⟩
    exact h.apart ino j h1 h16 hj hj' (Ne.symm hne) hold hsj

/-- One call. -/
theorem FsOp.exec_keyring (hE : E.Reliable) (hc : Keyed w op)
    (hret : returned (op.exec E w).1) (h : Keyring E w.rng born draw w.disk) :
    ∃ draw', Keyring E (op.exec E w).2.rng (bornAfter E w born op) draw'
      (op.exec E w).2.disk := by
  have hdisk : (∀ ino buf size offset, op ≠ .write ino buf size offset) →
      Keyring E w.rng born draw (op.exec E w).2.disk := fun hne =>
    exec_table hE (fun hd h => h.congr fun a ha _ => hd a ha)
      (fun h h1 h16 href v _ => h.alloc h1 h16 href v) (fun h _ _ hpos => h.unref hpos)
      (fun _ _ _ _ hop => absurd hop (hne _ _ _ _)) h
  cases op with
  | allocInode => exact ⟨draw, fsAllocInode_keyring hE h⟩
  | touch path value =>
    have hrng : ((FsOp.touch path value).exec E w).2.rng = w.rng := by
      rcases exec_touch_cases hE path value w with ⟨_, _, _, _, _, _, hw⟩ | hw
      · exact hw.rng_eq
      · exact hw.rng_eq
    rw [hrng]
    exact ⟨draw, hdisk fun _ _ _ _ => nofun⟩
  | read fuel ino size offset =>
    have hrng : ((FsOp.read fuel ino size offset).exec E w).2.rng = w.rng := by
      rw [exec_state]
      have hs := Still.discipline E
      exact (hs.walk.fsRead (hs.buffered Still.bufferFree) _ _ _ _ w)
    rw [hrng]
    exact ⟨draw, hdisk fun _ _ _ _ => nofun⟩
  | remove path =>
    have hrng : ((FsOp.remove path).exec E w).2.rng = w.rng := by
      rcases exec_remove_cases hE hret with ⟨_, _, _, _, _, _, hw⟩ | hw
      · exact hw.rng_eq
      · exact hw.rng_eq
    rw [hrng]
    exact ⟨draw, hdisk fun _ _ _ _ => nofun⟩
  | write ino buf size offset =>
    rcases exec_write hE hret with ⟨hd, hr⟩ | ⟨n, hrun⟩
    · rw [hd, hr]
      exact ⟨draw, h⟩
    obtain ⟨-, e', hw⟩ := fsWrite_ok hc.1 hrun
    rcases hc.2 with hmax | hoff | ⟨hcnt, hcase⟩
    · exact absurd hw.max (Nat.not_le.mpr hmax)
    · exact absurd hw.inside (Nat.not_le.mpr hoff)
    · exact hw.keyring h hcnt hcase

end Steps

-- ==== the theorem

theorem datedRun_keyring (hE : E.Reliable) {p : FsWorld × (Nat → Nat)}
    (hrun : DatedRun E Keyed (start E, fun _ => 0) p) :
    Head p.1.disk ∧ ∃ draw, Keyring E p.1.rng p.2 draw p.1.disk := by
  induction hrun with
  | refl =>
    have hz : ∀ i, Entry.size (entryAt ByteMap.zero i) = 0 := by
      intro i
      refine load_eq_zero.mpr fun x _ _ => ?_
      unfold entryAt slice
      split <;> rfl
    rw [start_disk E]
    refine ⟨fun _ _ => rfl, fun _ => 0, fun _ => Nat.zero_le _, fun i _ _ _ => hz i, ?_, ?_⟩
    · intro i _ _ hs
      exact absurd (hz i) (by omega)
    · intro i _ _ _ _ _ _ hs
      exact absurd (hz i) (by omega)
  | tail _ hstep ih =>
    obtain ⟨op, hc, ⟨hw, hret⟩, hborn⟩ := hstep
    obtain ⟨hhead, draw, hring⟩ := ih
    have htyped : Typed op := by
      cases op with
      | write ino buf size offset => exact hc.1
      | _ => trivial
    rw [← hw, hborn]
    exact ⟨op.exec_head htyped hhead, op.exec_keyring hE hc hret hring⟩

/-- In every state of a run whose writes are `Keyed`, the keys were
drawn. -/
theorem keys_drawn (hE : E.Reliable) {w : FsWorld} {born : Nat → Nat}
    (hrun : DatedRun E Keyed (start E, fun _ => 0) (w, born)) : KeysDrawn E w born := by
  obtain ⟨hhead, draw, h⟩ := datedRun_keyring hE hrun
  refine ⟨draw, fun i hi hs => h.drawn i (hhead.pos hi) hi.1 hs, ?_⟩
  intro i j hi hj hne hsi hsj
  exact h.apart i j (hhead.pos hi) hi.1 (hhead.pos hj) hj.1 hne hsi hsj

/-- A first file, and a byte of inode 0 in the way of its eleventh
block. -/
def crowdedStart : List FsOp :=
  [.allocInode, .touch [slash, 97] 1, .write 0 (fun _ => 1) 1 0]

/-- Its first eleven blocks. -/
def longWrite : FsOp := .write 1 (fun _ => 65) 45056 0

/-- That write has to move the file, and the file gets its key. -/
theorem keys_drawn_longWrite :
    KeysDrawn plainEnv (runAll plainEnv (start plainEnv) (crowdedStart ++ [longWrite]))
        (bornAll plainEnv (start plainEnv) (fun _ => 0) (crowdedStart ++ [longWrite]))
      ∧ Entry.size (entryAt (runAll plainEnv (start plainEnv)
          (crowdedStart ++ [longWrite])).disk 1) = 45056 := by
  refine ⟨keys_drawn plainEnv_reliable (runAll_dated _ _ _ ?_), by decide +kernel⟩
  refine ⟨trivial, by decide +kernel, trivial, by decide +kernel, ⟨by decide, ?_⟩,
    by decide +kernel, ⟨by decide, ?_⟩, by decide +kernel, trivial⟩
  · exact .inr (.inr ⟨by decide +kernel, .inl rfl⟩)
  · refine .inr (.inr ⟨by decide +kernel, .inr (.inr (.inr
      ⟨⟨by decide, by decide +kernel⟩, .inr ⟨10, ?_, ?_⟩⟩))⟩)
    · decide +kernel
    · decide +kernel

/-- One byte written to a fresh file. -/
def keylessFile : List FsOp :=
  [.allocInode, .touch [slash, 97] 1, .write 1 (fun _ => 65) 1 0]

/-- The file has content and nothing was ever drawn: its key and IV are
zero. -/
theorem first_write_keyless :
    DatedRun plainEnv (fun _ _ => True) (start plainEnv, fun _ => 0)
        (runAll plainEnv (start plainEnv) keylessFile,
          bornAll plainEnv (start plainEnv) (fun _ => 0) keylessFile)
      ∧ Live (runAll plainEnv (start plainEnv) keylessFile) 1
      ∧ Entry.size (entryAt (runAll plainEnv (start plainEnv) keylessFile).disk 1) = 1
      ∧ (runAll plainEnv (start plainEnv) keylessFile).rng = 0
      ∧ (∀ x < 280, entryAt (runAll plainEnv (start plainEnv) keylessFile).disk 1
          (24 + x) = 0)
      ∧ ¬ KeysDrawn plainEnv (runAll plainEnv (start plainEnv) keylessFile)
          (bornAll plainEnv (start plainEnv) (fun _ => 0) keylessFile) := by
  have hlive : Live (runAll plainEnv (start plainEnv) keylessFile) 1 :=
    ⟨by decide, by decide +kernel⟩
  have hsize : Entry.size (entryAt (runAll plainEnv (start plainEnv) keylessFile).disk 1)
      = 1 := by decide +kernel
  have hrng : (runAll plainEnv (start plainEnv) keylessFile).rng = 0 := by decide +kernel
  refine ⟨runAll_dated _ _ _ ⟨trivial, by decide +kernel, trivial, by decide +kernel,
    trivial, by decide +kernel, trivial⟩, hlive, hsize, hrng, by decide +kernel, ?_⟩
  rintro ⟨draw, hdrawn, _⟩
  obtain ⟨_, hle, _⟩ := hdrawn 1 hlive (by omega)
  omega

end RojocOS.Fs
