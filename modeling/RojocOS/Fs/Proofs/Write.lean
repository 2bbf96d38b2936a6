/-
What `fs_write` does, said once.

A call is the part up to the block loop (`writeFront`), the loop
(`writeRest`) and the end (`writeEnd`). Each part has one specification,
for the runs that return and on any disk: `Front` says which entry the
loop works with and how it was come by, `writeRest_ok` and `writeEnd_ok`
what becomes of it. Together they are `Wrote`, from which the invariants
of the inode table follow. `Front.keeps` carries any discipline over the
first part, given the blocks it may write.
-/
import RojocOS.Fs.Proofs.Footprint

namespace RojocOS.Fs

open ByteMap Prog

variable {E : FsEnv} {a j new : Nat} {src : ByteMap}
variable {b first i ino k n offset r size total : Nat}
  {disk disk' e e' e₁ e₂ : ByteMap} {aba : Option Nat} {w w' w₁ w₂ : FsWorld}
  {ctx : AesCtx}

-- ==== a working disk

theorem fsdr_reliable (hE : E.Reliable) (start size : Nat) (w : FsWorld) :
    fsdr E start size w
      = (.ok (slice w.disk (u64 start) size), { w with io := w.io + 1 }) := by
  unfold fsdr
  rw [hE]

theorem fsdw_reliable (hE : E.Reliable) (src : ByteMap)
    (start size : Nat) (w : FsWorld) : fsdw E src start size w = (.ok (), { w with
      disk := copy w.disk (u64 start) src 0 size, io := w.io + 1 }) := by
  unfold fsdw
  rw [hE]

theorem fsdw_total (hE : E.Reliable) (src : ByteMap) (start size : Nat) :
    (fsdw E src start size).Total :=
  fun w => ⟨_, _, fsdw_reliable hE src start size w⟩

/-- What does not stop on its own returns. -/
theorem FsEnv.Reliable.walk (hE : E.Reliable) :
    Walk E (fun _ _ _ => True) fun _ x => (x E.fault).Total where
  pure := Total.pure
  bind := Total.bind
  read _ _ w := ⟨_, _, fsdr_reliable hE _ _ w⟩
  write _ _ _ _ := fsdw_total hE _ _ _

theorem buffered_total (E : FsEnv) : Buffered fun _ x => (x E.fault).Total where
  get w := ⟨w, w, rfl⟩
  set _ _ _ := ⟨(), _, rfl⟩

-- ==== inode entries

theorem entryAddr_low (hino : ino < 16) (h : a < entryAddr ino + 304) : Low a := by
  unfold entryAddr at h
  unfold Low
  omega

theorem u64_entryAddr (hino : ino < 2 ^ 32) : u64 (entryAddr ino) = entryAddr ino := by
  unfold entryAddr u64
  omega

theorem fsdr_entry (hE : E.Reliable) (hino : ino < 2 ^ 32)
    (w : FsWorld) : fsdr E (entryAddr ino) 304 w
      = (.ok (entryAt w.disk ino), { w with io := w.io + 1 }) := by
  rw [fsdr_reliable hE, u64_entryAddr hino]
  rfl

theorem fsdw_entry (hE : E.Reliable) (hino : ino < 2 ^ 32)
    (e : ByteMap) (w : FsWorld) : fsdw E e (entryAddr ino) 304 w
      = (.ok (), { w with
          disk := copy w.disk (entryAddr ino) e 0 304, io := w.io + 1 }) := by
  rw [fsdw_reliable hE, u64_entryAddr hino]

/-- An entry depends only on its own bytes. -/
theorem entryAt_congr
    (h : ∀ a, entryAddr ino ≤ a → a < entryAddr ino + 304 → disk' a = disk a) :
    entryAt disk' ino = entryAt disk ino :=
  slice_congr h

theorem entryAt_of_low (h : ∀ a, Low a → disk' a = disk a) (hino : ino < 16) :
    entryAt disk' ino = entryAt disk ino :=
  entryAt_congr fun a _ h2 => h a (entryAddr_low hino h2)

/-- Writing entry `i` leaves entry `j`. -/
theorem entryAt_copy_other (h : i ≠ j) :
    entryAt (copy disk (entryAddr i) e 0 304) j = entryAt disk j := by
  refine entryAt_congr fun a h1 h2 => copy_of_not_mem ?_
  unfold entryAddr at *
  rcases Nat.lt_or_gt_of_ne h with hlt | hgt
  · omega
  · omega

/-- The fields of entry `i` after it was written. -/
theorem load_entryAt_copy (h : b + k ≤ 304) :
    load (entryAt (copy disk (entryAddr i) e 0 304) i) b k = load e b k := by
  unfold entryAt
  rw [load_slice h, load_copy_of_mem (by omega)]
  congr 1
  omega

/-- A slice of a whole entry reads like the entry. -/
theorem load_entryAt (h : b + k ≤ 304) :
    load (entryAt disk i) b k = load disk (entryAddr i + b) k :=
  load_slice h

-- ==== the probe

theorem blocksAvailFrom_ok (s : Nat) :
    ∀ n i addr w v w', blocksAvailFrom E s n i addr w = (.ok v, w') →
      (v = 0 ↔ ∃ k < n, w.disk (u64 (addr + sext s + i + 2 * k)) ≠ 0) := by
  intro n
  induction n with
  | zero =>
    intro i addr w v w' h
    cases h
    simp
  | succ n ih =>
    intro i addr w v w' h
    obtain ⟨dest, w₁, hread, h⟩ := bind_ok.mp h
    obtain ⟨hdest, rfl⟩ := fsdr_ok hread
    have hb : dest 0 = w.disk (u64 (addr + sext s + i)) := by
      rw [hdest, slice_of_lt (by omega), Nat.add_zero]
    rw [hb] at h
    by_cases h0 : w.disk (u64 (addr + sext s + i)) ≠ 0
    · rw [if_pos h0] at h
      cases h
      exact ⟨fun _ => ⟨0, by omega, h0⟩, fun _ => rfl⟩
    · rw [if_neg h0] at h
      have hshift : ∀ k, addr + 1 + sext s + (i + 1) + 2 * k
          = addr + sext s + i + 2 * (k + 1) := by
        intro k
        omega
      rw [ih _ _ _ _ _ h]
      refine ⟨fun ⟨k, hk, hne⟩ => ⟨k + 1, by omega, ?_⟩, fun ⟨k, hk, hne⟩ => ?_⟩
      · rw [← hshift]
        exact hne
      · cases k with
        | zero => exact absurd hne h0
        | succ k => exact ⟨k, by omega, by rw [hshift]; exact hne⟩

/-- A byte the probe behind the file looks at is taken: every second one,
as both `addr` and `i` advance. -/
def Crowded (disk e : ByteMap) (new : Nat) : Prop :=
  ∃ k < new, disk (u64 (sext (Entry.startBlock e + Entry.blockCount e) + 2 * k)) ≠ 0

/-- A probe that comes back tells the truth, on any disk. -/
theorem probeGrowth_ok (h : probeGrowth E fsdesc e new w = (.ok aba, w')) :
    aba = some 0 ↔ Crowded w.disk e new := by
  unfold probeGrowth at h
  by_cases hnew : 0 < new
  · rw [if_pos hnew] at h
    obtain ⟨v, w₁, hrun, h⟩ := bind_ok.mp h
    cases h
    have hv := blocksAvailFrom_ok _ _ _ _ _ _ _ hrun
    have haddr : ∀ k, fsdesc.availBlockTableOffset
        + sext (Entry.startBlock e + Entry.blockCount e) + 0 + 2 * k
        = sext (Entry.startBlock e + Entry.blockCount e) + 2 * k := by
      intro k
      simp only [fsdesc]
      omega
    simp only [haddr] at hv
    rw [Option.some.injEq]
    exact hv
  · rw [if_neg hnew] at h
    cases h
    simp only [Crowded, false_iff, reduceCtorEq]
    rintro ⟨k, hk, _⟩
    omega

-- ==== the relocation

theorem Still.discipline (E : FsEnv) :
    Discipline E (fun _ _ _ => True) fun w w' => w'.rng = w.rng :=
  .of_rest (fun _ => rfl) (fun h1 h2 => h2.trans h1) fun _ _ _ => rfl

theorem Still.bufferFree : Discipline.BufferFree fun w w' => w'.rng = w.rng :=
  fun _ _ _ => rfl

/-- The key and IV of `e` are the 272 bytes drawn from position `r`. -/
def DrawnAt (E : FsEnv) (r : Nat) (e : ByteMap) : Prop :=
  Entry.cipherKey e = slice (fun i => E.rand (r + i)) 0 256
    ∧ Entry.cipherIv e = load (slice (fun i => E.rand (r + 256 + i)) 0 16) 0 16

theorem DrawnAt.congr (h : DrawnAt E r e)
    (he : ∀ x, 24 ≤ x → e' x = e x) : DrawnAt E r e' := by
  refine ⟨?_, ?_⟩
  · rw [← h.1]
    exact slice_congr fun x h1 _ => he x h1
  · rw [← h.2]
    exact load_congr fun x h1 _ => he x (by omega)

/-- The entry of a relocated file. -/
theorem moved_entry (hfirst : first ≤ 16)
    (he : e' = Entry.setCipherIv (Entry.setCipherKey (Entry.setStartBlock e first)
      (slice (fun i => E.rand (r + i)) 0 256))
      (load (slice (fun i => E.rand (r + 256 + i)) 0 16) 0 16)) :
    (∀ x, x < 16 ∨ (20 ≤ x ∧ x < 24) → e' x = e x) ∧ Entry.startBlock e' = first
      ∧ DrawnAt E r e' := by
  have hiv := load_lt (slice (fun i => E.rand (r + 256 + i)) 0 16) 0 16
  subst he
  refine ⟨fun x hx => ?_, ?_, ?_, ?_⟩
  · unfold Entry.setCipherIv Entry.setCipherKey Entry.setStartBlock
    rw [store_of_not_mem (by omega), copy_of_not_mem (by omega), store_of_not_mem (by omega)]
  · unfold Entry.startBlock Entry.setCipherIv Entry.setCipherKey Entry.setStartBlock
    rw [load_store_of_disjoint (by omega), load_copy_of_disjoint (by omega),
      load_store_of_lt (by omega)]
  · funext x
    unfold Entry.cipherKey Entry.setCipherIv Entry.setCipherKey
    by_cases hx : x < 256
    · rw [slice_of_lt hx, store_of_not_mem (by omega), copy_of_mem (by omega),
        Nat.add_sub_cancel_left, Nat.zero_add]
    · unfold slice
      rw [if_neg hx, if_neg hx]
  · unfold Entry.cipherIv Entry.setCipherIv
    rw [load_store_of_lt (by omega)]

/-- A range found lies inside the volume. -/
theorem searchFreeFrom_room (n : Nat) :
    ∀ rest s c addr w r w', searchFreeFrom E n rest s c addr w = (.ok r, w') →
      r + n ≤ s + c + rest := by
  intro rest
  induction rest with
  | zero =>
    intro s c addr w r w' h
    unfold searchFreeFrom at h
    split at h
    · cases h
      omega
    · cases h
  | succ rest ih =>
    intro s c addr w r w' h
    unfold searchFreeFrom at h
    split at h
    · obtain ⟨dest, w₁, _, h2⟩ := bind_ok.mp h
      split at h2
      · have := ih _ _ _ _ _ _ h2
        omega
      · have := ih _ _ _ _ _ _ h2
        omega
    · split at h
      · cases h
        omega
      · cases h

/-- What the relocation branch does to the entry and to the generator, and
which blocks it writes. -/
structure Relocated (E : FsEnv) (aba : Option Nat) (total offset : Nat) (e e' : ByteMap)
    (w w' : FsWorld) : Prop where
  same : ∀ x, x < 16 ∨ (20 ≤ x ∧ x < 24) → e' x = e x
  stay : aba ≠ some 0 → e' = e ∧ w' = w
  moved : aba = some 0 →
    Entry.startBlock e' + total ≤ 16 ∧ DrawnAt E w.rng e' ∧ w'.rng = w.rng + 272
  keeps : ∀ {W : ByteMap → Nat → Nat → Prop} {R : FsWorld → FsWorld → Prop},
    Discipline E W R → (∀ n, Keeps R (fsrng E n)) →
    (aba = some 0 → ∀ k < u32 (offset / 4096), BlockIn fsdesc W (Entry.startBlock e' + k)) →
    R w w'

theorem relocate_spec (h : relocate E fsdesc aba e total offset w = (.ok e', w')) :
    Relocated E aba total offset e e' w w' := by
  unfold relocate at h
  by_cases ha : aba = some 0
  case neg =>
    rw [if_neg ha] at h
    cases h
    exact ⟨fun _ _ => rfl, fun _ => ⟨rfl, rfl⟩, fun h => absurd h ha, fun hd _ _ => hd.refl _⟩
  case pos =>
    rw [if_pos ha] at h
    obtain ⟨first, w₁, hsearch, h⟩ := bind_ok.mp h
    obtain ⟨key, w₂, hkey, h⟩ := bind_ok.mp h
    obtain ⟨ivb, w3, hiv, h⟩ := bind_ok.mp h
    obtain ⟨u, w4, hcopy, h⟩ := bind_ok.mp h
    have hroom := searchFreeFrom_room _ _ _ _ _ _ _ _ hsearch
    simp only [fsdesc] at hroom
    have hs := Still.discipline E
    have hrng1 : w₁.rng = w.rng := (hs.walk.searchFreeFrom _ _ _ _ _).of_run hsearch
    have hrng4 : w4.rng = w3.rng := (Keeps.ignoreErr (hs.walk.copyBlockFrom _ _ _ _ _ _
      fun _ _ _ => blockIn_any _ _)).of_run hcopy
    have hkeep : ∀ {W R}, Discipline E W R → (∀ n, Keeps R (fsrng E n)) →
        (∀ k < u32 (offset / 4096), BlockIn fsdesc W (first + k)) → R w w4 := by
      intro W R hd hdraw hW
      have hblocks := hd.walk.copyBlockFrom (Entry.startBlock e) first
        (u32 (offset / 4096)) 0 (aesInitCtxIv E (Entry.cipherKey e) (Entry.cipherIv e))
        (aesInitCtxIv E key (load ivb 0 16)) fun k _ hk => hW k (by omega)
      exact hd.trans ((hd.walk.searchFreeFrom _ _ _ _ _).of_run hsearch)
        (hd.trans ((hdraw _).of_run hkey) (hd.trans ((hdraw _).of_run hiv)
          ((Keeps.ignoreErr hblocks).of_run hcopy)))
    have hdraw : e' = Entry.setCipherIv (Entry.setCipherKey (Entry.setStartBlock e first)
        (slice (fun i => E.rand (w.rng + i)) 0 256))
        (load (slice (fun i => E.rand (w.rng + 256 + i)) 0 16) 0 16)
        ∧ w3.rng = w.rng + 272 := by
      cases h
      cases hkey
      cases hiv
      rw [← hrng1]
      exact ⟨rfl, rfl⟩
    obtain ⟨hsame, hstart, hdrawn⟩ := moved_entry (by omega) hdraw.1
    cases h
    refine ⟨hsame, fun h => absurd ha h, fun _ => ⟨?_, hdrawn, hrng4.trans hdraw.2⟩,
      fun hd hdraw hW => hkeep hd hdraw (hstart ▸ hW ha)⟩
    omega

-- ==== the three parts

/-- `new_block`. -/
def newBlocks (e : ByteMap) (size offset : Nat) : Nat :=
  subU32 (sizeToBlock (u64 (offset + size))) (Entry.blockCount e)

theorem blockCount_lt (e : ByteMap) : Entry.blockCount e < 2 ^ 32 := load_lt e 20 4

/-- The number of availability bytes cleared is the old block count. -/
theorem newBlocks_back (e : ByteMap) (size offset : Nat) :
    subU32 (sizeToBlock (u64 (offset + size))) (newBlocks e size offset)
      = Entry.blockCount e := by
  have hcount := blockCount_lt e
  unfold newBlocks subU32 u32
  omega

theorem readEntry_eq (h32 : ino < 2 ^ 32) : readEntry disk ino = entryAt disk ino := by
  unfold readEntry
  rw [u64_entryAddr h32]
  rfl

/-- What `fs_write` has done when it comes to the block loop, with the
entry `e`. -/
structure Front (E : FsEnv) (ino size offset : Nat) (w w' : FsWorld) (aba : Option Nat)
    (new : Nat) (e : ByteMap) : Prop where
  max : size ≤ FS_IO_MAX_SIZE
  inside : offset ≤ Entry.size (entryAt w.disk ino)
  new_eq : new = newBlocks (entryAt w.disk ino) size offset
  crowded : aba = some 0 ↔ Crowded w.disk (entryAt w.disk ino) new
  same : ∀ x, x < 16 ∨ (20 ≤ x ∧ x < 24) → e x = entryAt w.disk ino x
  stay : aba ≠ some 0 → e = entryAt w.disk ino ∧ w'.rng = w.rng
  moved : aba = some 0 → Entry.startBlock e + sizeToBlock (u64 (offset + size)) ≤ 16
    ∧ DrawnAt E w.rng e ∧ w'.rng = w.rng + 272
  keeps : ∀ {W : ByteMap → Nat → Nat → Prop} {R : FsWorld → FsWorld → Prop},
    Discipline E W R → Discipline.BufferFree R → (∀ n, Keeps R (fsrng E n)) →
    (aba = some 0 → ∀ k < u32 (offset / 4096), BlockIn fsdesc W (Entry.startBlock e + k)) →
    (offset % 4096 ≠ 0 → BlockIn fsdesc W (Entry.startBlock e + offset / 4096)) → R w w'

section Parts

variable {new : Nat}

theorem writeFront_spec (h32 : ino < 2 ^ 32)
    (h : writeFront E ino size offset w = (.ok (aba, new, e, ctx), w')) :
    Front E ino size offset w w' aba new e := by
  unfold writeFront at h
  split at h
  · cases h
  next hmax =>
  obtain ⟨e0, w₁, hread, h⟩ := bind_ok.mp h
  obtain ⟨he0, hw1⟩ := fsdr_ok hread
  obtain rfl : e0 = entryAt w.disk ino := he0.trans (readEntry_eq h32)
  split at h
  · cases h
  next hoff =>
  obtain ⟨aba', w₂, hprobe, h⟩ := bind_ok.mp h
  obtain ⟨block, w3, hmerge, h⟩ := bind_ok.mp h
  obtain ⟨e₁, w4, hreloc, h⟩ := bind_ok.mp h
  obtain ⟨ctx', w5, hpart, h⟩ := bind_ok.mp h
  cases h
  have hs := Still.discipline E
  have hrng3 : w3.rng = w.rng := hs.trans ((hs.read _ _).of_run hread)
    (hs.trans ((hs.walk.probeGrowth _ _).of_run hprobe)
      ((hs.walk.mergePartial (hs.buffered Still.bufferFree) _ _).of_run hmerge))
  have hcrowd := probeGrowth_ok hprobe
  rw [hw1] at hcrowd
  have hrng5 : w'.rng = w4.rng :=
    (hs.walk.writePartial _ _ _ fun _ => blockIn_any _ _).of_run hpart
  have hmoved := relocate_spec hreloc
  refine ⟨Nat.not_lt.mp hmax, Nat.not_lt.mp hoff, rfl, hcrowd, hmoved.same,
    fun ha => ?_, fun ha => ?_, fun hd hb hdraw hcopy hblock => ?_⟩
  · obtain ⟨he, rfl⟩ := hmoved.stay ha
    exact ⟨he, hrng5.trans hrng3⟩
  · obtain ⟨hroom, hdrawn, hrng4⟩ := hmoved.moved ha
    rw [hrng3] at hdrawn hrng4
    exact ⟨hroom, hdrawn, hrng5.trans hrng4⟩
  · refine hd.trans (hd.trans ((hd.read _ _).of_run hread) ((hd.walk.probeGrowth _ _).of_run hprobe))
      (hd.trans ((hd.walk.mergePartial (hd.buffered hb) _ _).of_run hmerge) (hd.trans (hmoved.keeps hd hdraw hcopy)
        ((hd.walk.writePartial _ _ _ hblock).of_run hpart)))

/-- The entry after the block loop. -/
theorem writeRest_ok (h : writeRest E fsdesc e ctx offset total new w = (.ok e', w')) :
    (∀ x, x < 20 ∨ 24 ≤ x → e' x = e x)
      ∧ (total < 2 ^ 32 → new = subU32 total (Entry.blockCount e) →
        Entry.blockCount e' = total) := by
  have hlt := blockCount_lt e
  unfold writeRest at h
  by_cases hn : new = 0
  · rw [if_neg (not_not_intro hn)] at h
    cases h
    refine ⟨fun _ _ => rfl, fun ht hnew => ?_⟩
    unfold subU32 u32 at hnew
    omega
  · rw [if_pos hn] at h
    obtain ⟨_, w₁, _, h⟩ := bind_ok.mp h
    cases h
    exact ⟨fun x hx => store_of_not_mem (by omega), fun ht _ => load_store_of_lt (by omega)⟩

theorem fsdw_ok {u : Unit} (h : fsdw E src first n w = (.ok u, w')) :
    w' = { w with disk := copy w.disk (u64 first) src 0 n, io := w.io + 1 } := by
  unfold fsdw at h
  split at h
  · cases h
    rfl
  · cases h

/-- Bytes are cleared, and only those of `B`. -/
theorem Cleared.discipline (E : FsEnv) (B : Nat → Prop) :
    Discipline E (fun src start size => src = ZERO ∧
        ∀ a, u64 start ≤ a → a < u64 start + size → B a)
      fun w w' => ∀ a, w'.disk a = w.disk a ∨ (w'.disk a = 0 ∧ B a) where
  refl _ _ := .inl rfl
  trans h1 h2 a := by
    rcases h2 a with h | h
    · rw [h]
      exact h1 a
    · exact .inr h
  read start size w a := by
    unfold fsdr
    split <;> exact .inl rfl
  write src start size hW w a := by
    obtain ⟨rfl, hB⟩ := hW
    have hcopy : ∀ n ≤ size, copy w.disk (u64 start) ZERO 0 n a = w.disk a
        ∨ (copy w.disk (u64 start) ZERO 0 n a = 0 ∧ B a) := by
      intro n hn
      by_cases hin : u64 start ≤ a ∧ a < u64 start + n
      · rw [copy_of_mem hin]
        exact .inr ⟨rfl, hB a hin.1 (by omega)⟩
      · exact .inl (copy_of_not_mem hin)
    unfold fsdw
    split
    · exact hcopy size (Nat.le_refl _)
    · exact hcopy _ (Nat.min_le_right _ _)

/-- The end of `fs_write`: the entry, and after a relocation the bytes of
the old number of blocks cleared in the allocator's map. -/
theorem writeEnd_ok {n : Nat} (h32 : ino < 2 ^ 32)
    (h : writeEnd E ino size offset aba new e w = (.ok n, w')) :
    n = size ∧ w'.rng = w.rng ∧ ∀ a,
      w'.disk a = copy w.disk (entryAddr ino) (Entry.setSize e (u64 (offset + size))) 0 304 a
        ∨ (w'.disk a = 0 ∧ aba = some 0
          ∧ (Entry.startBlock e + subU32 (sizeToBlock (u64 (offset + size))) new ≤ 2 ^ 31 →
            a < Entry.startBlock e + subU32 (sizeToBlock (u64 (offset + size))) new)) := by
  obtain ⟨_, w₁, hwrite, h⟩ := bind_ok.mp h
  obtain ⟨_, w₂, hclear, h⟩ := bind_ok.mp h
  cases h
  have hw1 := fsdw_ok hwrite
  rw [u64_entryAddr h32] at hw1
  have hdisk : w₁.disk = copy w.disk (entryAddr ino) (Entry.setSize e (u64 (offset + size))) 0 304 := by
    rw [hw1]
  have hs := Still.discipline E
  have hrng1 : w₁.rng = w.rng := (hs.write _ _ _ trivial).of_run hwrite
  rw [← hdisk]
  by_cases ha : aba = some 0
  · rw [when_of ha] at hclear
    refine ⟨rfl, hs.trans hrng1
      ((hs.walk.clearAvailability _ _ _ fun _ _ _ => trivial).of_run hclear), fun a => ?_⟩
    refine (((Cleared.discipline E fun a => Entry.startBlock e
        + subU32 (sizeToBlock (u64 (offset + size))) new ≤ 2 ^ 31 →
          a < Entry.startBlock e + subU32 (sizeToBlock (u64 (offset + size)))
            new).walk.clearAvailability _ _ _ fun k _ hk => ?_).of_run hclear a).imp_right fun h => ⟨h.1, ha, h.2⟩
    refine ⟨rfl, fun a h1 h2 hsmall => ?_⟩
    have hu : u32 (Entry.startBlock e + k) = Entry.startBlock e + k :=
      Nat.mod_eq_of_lt (by omega)
    unfold sext at h2
    rw [hu, if_pos (by omega)] at h2
    simp only [fsdesc, u64] at h2
    omega
  · rw [when_of_not ha] at hclear
    cases hclear
    exact ⟨rfl, hrng1, fun _ => .inl rfl⟩

end Parts

-- ==== the whole

/-- The write has to move its file. -/
def Moves (w : FsWorld) (ino size offset : Nat) : Prop :=
  Crowded w.disk (entryAt w.disk ino) (newBlocks (entryAt w.disk ino) size offset)

/-- What a successful `fs_write` did: `e'` is the entry on disk now. -/
structure Wrote (E : FsEnv) (ino size offset : Nat) (w w' : FsWorld) (e' : ByteMap) : Prop where
  max : size ≤ FS_IO_MAX_SIZE
  inside : offset ≤ Entry.size (entryAt w.disk ino)
  front : ∀ x < 8, e' x = entryAt w.disk ino x
  length : Entry.size e' = u64 (offset + size)
  count : Entry.blockCount e' = sizeToBlock (u64 (offset + size))
  stay : ¬ Moves w ino size offset →
    (∀ x, (16 ≤ x ∧ x < 20) ∨ 24 ≤ x → e' x = entryAt w.disk ino x) ∧ w'.rng = w.rng
  moved : Moves w ino size offset →
    Entry.startBlock e' + sizeToBlock (u64 (offset + size)) ≤ 16
      ∧ DrawnAt E w.rng e' ∧ w'.rng = w.rng + 272
  table : ∀ a, Low a → w'.disk a = copy w.disk (entryAddr ino) e' 0 304 a
    ∨ (w'.disk a = 0 ∧ Moves w ino size offset
      ∧ (Entry.blockCount (entryAt w.disk ino) ≤ 2 ^ 30 →
        a < Entry.startBlock e' + Entry.blockCount (entryAt w.disk ino)))

/-- The parts of a successful call. -/
theorem fsWrite_parts (h32 : ino < 2 ^ 32)
    (h : fsWrite E fsdesc ino size offset w = (.ok n, w')) :
    ∃ aba e₁ ctx w₁ e₂ w₂,
      Front E ino size offset w w₁ aba (newBlocks (entryAt w.disk ino) size offset) e₁
        ∧ writeRest E fsdesc e₁ ctx offset (sizeToBlock (u64 (offset + size)))
            (newBlocks (entryAt w.disk ino) size offset) w₁ = (.ok e₂, w₂)
        ∧ writeEnd E ino size offset aba (newBlocks (entryAt w.disk ino) size offset) e₂ w₂
          = (.ok n, w') := by
  rw [fsWrite_split] at h
  obtain ⟨⟨aba, new, e₁, ctx⟩, w₁, hfront, h⟩ := bind_ok.mp h
  obtain ⟨e₂, w₂, hrest, hend⟩ := bind_ok.mp h
  have hf := writeFront_spec h32 hfront
  obtain rfl := hf.new_eq
  exact ⟨aba, e₁, ctx, w₁, e₂, w₂, hf, hrest, hend⟩

/-- The entry written back, and how the one before it was found. -/
theorem Front.rest
    (h : Front E ino size offset w w₁ aba (newBlocks (entryAt w.disk ino) size offset) e₁)
    (hrest : writeRest E fsdesc e₁ ctx offset (sizeToBlock (u64 (offset + size)))
      (newBlocks (entryAt w.disk ino) size offset) w₁ = (.ok e₂, w₂)) :
    (∀ x, x < 20 ∨ 24 ≤ x → e₂ x = e₁ x) ∧ Entry.startBlock e₂ = Entry.startBlock e₁
      ∧ Entry.blockCount e₂ = sizeToBlock (u64 (offset + size)) := by
  obtain ⟨hsame, hcount⟩ := writeRest_ok hrest
  refine ⟨hsame, load_congr fun x h1 h2 => hsame x (by omega), hcount (u32_lt _) ?_⟩
  have hold : Entry.blockCount e₁ = Entry.blockCount (entryAt w.disk ino) :=
    load_congr fun x h1 h2 => h.same x (by omega)
  rw [hold]
  rfl

/-- The three parts together. -/
theorem Front.wrote (h32 : ino < 2 ^ 32)
    (hf : Front E ino size offset w w₁ aba (newBlocks (entryAt w.disk ino) size offset) e₁)
    (hrest : writeRest E fsdesc e₁ ctx offset (sizeToBlock (u64 (offset + size)))
      (newBlocks (entryAt w.disk ino) size offset) w₁ = (.ok e₂, w₂))
    (hend : writeEnd E ino size offset aba (newBlocks (entryAt w.disk ino) size offset) e₂ w₂
      = (.ok n, w')) :
    Wrote E ino size offset w w' (Entry.setSize e₂ (u64 (offset + size))) := by
  obtain ⟨hsame, hstart, hcount⟩ := hf.rest hrest
  obtain ⟨-, hrng, hdisk⟩ := writeEnd_ok h32 hend
  have hs := Still.discipline E
  have hrng2 : w₂.rng = w₁.rng := (hs.walk.writeRest (hs.buffered Still.bufferFree) hs.ignores
    _ _ _ fun _ _ => blockIn_any _ _).of_run hrest
  have hlow : ∀ a, Low a → w₂.disk a = w.disk a := fun a ha =>
    ((writeRest_spares _ _ _ _ _).of_run hrest a ha).trans
      (hf.keeps (Spares.discipline E Low) (Spares.bufferFree Low) fsrng_spares
        (fun _ _ _ => blockIn_low _) (fun _ => blockIn_low _) a ha)
  -- the last field stored is the size
  have hbytes : ∀ x, x < 8 ∨ 16 ≤ x → Entry.setSize e₂ (u64 (offset + size)) x = e₂ x :=
    fun x hx => store_of_not_mem (by omega)
  have hstart' : Entry.startBlock (Entry.setSize e₂ (u64 (offset + size)))
      = Entry.startBlock e₁ := (load_congr fun x h1 h2 => hbytes x (by omega)).trans hstart
  refine ⟨hf.max, hf.inside, fun x hx => ?_, load_store_of_lt (Nat.mod_lt _ (by decide)),
    (load_congr fun x h1 h2 => hbytes x (by omega)).trans hcount,
    fun hc => ?_, fun hc => ?_, fun a ha => ?_⟩
  · rw [hbytes x (by omega), hsame x (by omega), hf.same x (by omega)]
  · obtain ⟨he, hrng1⟩ := hf.stay fun ha => hc (hf.crowded.mp ha)
    refine ⟨fun x hx => ?_, hrng.trans (hrng2.trans hrng1)⟩
    rw [hbytes x (by omega), hsame x (by omega), he]
  · obtain ⟨hroom, hdrawn, hrng1⟩ := hf.moved (hf.crowded.mpr hc)
    refine ⟨hstart' ▸ hroom, hdrawn.congr fun x hx => ?_, hrng.trans (hrng2.trans hrng1)⟩
    rw [hbytes x (by omega), hsame x (by omega)]
  · rcases hdisk a with h | ⟨h0, haba, hlt⟩
    · left
      rw [h]
      unfold copy
      split
      · rfl
      · exact hlow a ha
    · refine .inr ⟨h0, hf.crowded.mp haba, fun hsmall => ?_⟩
      rw [newBlocks_back, hstart] at hlt
      rw [hstart']
      have hroom := (hf.moved haba).1
      exact hlt (by omega)

theorem fsWrite_ok (h32 : ino < 2 ^ 32)
    (h : fsWrite E fsdesc ino size offset w = (.ok n, w')) :
    n = size ∧ ∃ e', Wrote E ino size offset w w' e' := by
  obtain ⟨aba, e₁, ctx, w₁, e₂, w₂, hf, hrest, hend⟩ := fsWrite_parts h32 h
  exact ⟨(writeEnd_ok h32 hend).1, _, hf.wrote h32 hrest hend⟩

/-- Behind the cleared bytes, the table is the old one with the new
entry. -/
theorem Wrote.table_above
    (h : Wrote E ino size offset w w' e') (top : Nat) (htop : top ≤ 2 ^ 30)
    (hroom : Moves w ino size offset →
      Entry.startBlock e' + Entry.blockCount (entryAt w.disk ino) ≤ top) :
    ∀ a, Low a → top ≤ a → w'.disk a = copy w.disk (entryAddr ino) e' 0 304 a := by
  intro a ha hle
  rcases h.table a ha with hsame | ⟨-, hmoves, hlt⟩
  · exact hsame
  · have := hroom hmoves
    omega

end RojocOS.Fs
