/-
Footprints of the file system operations: which disk bytes each of them
leaves alone.

`Discipline W R` says that every read and every write in `W` respects the
relation `R`; then so does every routine whose writes are in `W`, and each
routine says which writes these are. `Spares P x` is the case of the
relation "no disk byte in `P` changes". The two footprints everything below
rests on:

- the tree operations write from `tree_usage_offset` on, and the block
  operations from `block_usage_offset` on, so neither reaches the inode
  table (`Low`), whatever the indices they work with;
- the only way `fs_remove` reaches the inode table is `unref_inode`.

Block and node indices are 32-bit, and the descriptor's offsets are
small, so no address computation wraps.
-/
import RojocOS.Fs.Run

namespace RojocOS.Fs

open ByteMap Prog

variable {E : FsEnv} {d : FsDescriptor} {P : Nat → Prop} {α β : Type}
  {b block e : ByteMap} {index newBlock r : Nat} {w : FsWorld}
variable {idx ino offset size start : Nat} {w' : FsWorld} {src : ByteMap}

/-- No outcome of `x` changes a disk byte in `P`. -/
def Spares (P : Nat → Prop) (x : FsM α) : Prop :=
  Keeps (fun w w' => ∀ a, P a → w'.disk a = w.disk a) x

/-- The metadata and the inode table. -/
def Low (a : Nat) : Prop := a < 4876

-- ==== the rules

theorem Spares.pure (a : α) : Spares P (pure a : FsM α) :=
  Keeps.pure (fun _ _ _ => rfl) a

theorem Spares.stop (e : Stop) : Spares P (Prog.stop e : FsM α) :=
  Keeps.stop (fun _ _ _ => rfl) e

theorem Spares.bind {x : FsM α} {f : α → FsM β} (hx : Spares P x)
    (hf : ∀ a, Spares P (f a)) : Spares P (x >>= f) :=
  Keeps.bind (fun h1 h2 a ha => (h2 a ha).trans (h1 a ha)) hx hf

theorem Spares.assert (b : Prop) [Decidable b] : Spares P (Prog.assert b : FsM Unit) :=
  Keeps.assert (fun _ _ _ => rfl) b

theorem Spares.failIf (b : Prop) [Decidable b] (e : Stop) :
    Spares P (Prog.failIf b e : FsM Unit) :=
  Keeps.failIf (fun _ _ _ => rfl) b e

theorem Spares.ignoreErr {x : FsM α} (hx : Spares P x) : Spares P x.ignoreErr :=
  Keeps.ignoreErr hx

/-- What spares every byte leaves the disk as it is. -/
theorem Spares.disk_eq {x : FsM α} (hx : Spares (fun _ => True) x)
    (w : FsWorld) : (x w).2.disk = w.disk :=
  funext fun a => hx w a trivial

-- ==== disk accesses

theorem fsdr_spares (start size : Nat) : Spares P (fsdr E start size) := by
  intro w a _
  unfold fsdr
  split <;> rfl

/-- A read of the disk returns its bytes or the disk's error. -/
theorem fsdr_outcome (start size : Nat) (w : FsWorld) :
    fsdr E start size w = (.ok (slice w.disk (u64 start) size), { w with io := w.io + 1 })
      ∨ ¬ E.Reliable
        ∧ fsdr E start size w = (.error (.err (-eio)), { w with io := w.io + 1 }) := by
  unfold fsdr
  cases hf : E.fault w.io (u64 start) size with
  | none => exact .inl rfl
  | some m =>
    refine .inr ⟨fun hE => ?_, rfl⟩
    rw [hE] at hf
    cases hf

theorem fsdr_ok (h : fsdr E start size w = (.ok b, w')) :
    b = slice w.disk (u64 start) size ∧ w' = { w with io := w.io + 1 } := by
  rcases fsdr_outcome start size w with hr | ⟨-, hr⟩
  · rw [hr] at h
    cases h
    exact ⟨rfl, rfl⟩
  · rw [hr] at h
    cases h

/-- A write, failed or not, stays inside the range it was given. -/
theorem fsdw_spares (h : ∀ a, P a → ¬ (u64 start ≤ a ∧ a < u64 start + size)) :
    Spares P (fsdw E src start size) := by
  intro w a ha
  have hout := h a ha
  unfold fsdw
  split
  · exact copy_of_not_mem hout
  · refine copy_of_not_mem fun hin => hout ⟨hin.1, ?_⟩
    rename_i m _
    omega

theorem fsrng_spares (size : Nat) : Spares P (fsrng E size) :=
  fun _ _ _ => rfl

/-- Writing from `block_usage_offset` on spares the inode table. -/
theorem fsdw_spares_low (h : 4876 ≤ start) (h' : start < 2 ^ 64) :
    Spares Low (fsdw E src start size) := by
  refine fsdw_spares fun a ha hin => ?_
  have hu : u64 start = start := Nat.mod_eq_of_lt h'
  unfold Low at ha
  omega

-- ==== walks

/-- Which accesses fail, and after how many bytes. -/
abbrev Fault := Nat → Nat → Nat → Option Nat

def FsEnv.withFault (E : FsEnv) (f : Fault) : FsEnv := { E with fault := f }

/-- The two writes of `encrypt_block` at `index` are in `W`. -/
def BlockIn (d : FsDescriptor) (W : ByteMap → Nat → Nat → Prop) (index : Nat) : Prop :=
  (∀ src, W src (d.dataOffset + u32 (u32 index * 4096)) 4096)
    ∧ W ONE (d.blockUsageOffset + u32 index) 1

theorem blockIn_any (d : FsDescriptor) (index : Nat) : BlockIn d
    (fun _ _ _ => True) index :=
  ⟨fun _ => trivial, trivial⟩

/-- A property that sequencing keeps and that every read has, and every
write in `W`: what is written, where, and how much of it. A computation is
given under all faults, so that a property may compare its runs under two
of them. -/
structure Walk (E : FsEnv) (W : ByteMap → Nat → Nat → Prop)
    (C : (α : Type) → (Fault → FsM α) → Prop) : Prop where
  pure : ∀ {α : Type} (a : α), C α fun _ => pure a
  bind : ∀ {α β : Type} {x : Fault → FsM α} {g : Fault → α → FsM β},
    C α x → (∀ a, C β fun f => g f a) → C β fun f => x f >>= g f
  read : ∀ start size, C ByteMap fun f => fsdr (E.withFault f) start size
  write : ∀ src start size, W src start size →
    C Unit fun f => fsdw (E.withFault f) src start size

/-- A walk that may stop. -/
structure Search (E : FsEnv) (W : ByteMap → Nat → Nat → Prop)
    (C : (α : Type) → (Fault → FsM α) → Prop) : Prop extends Walk E W C where
  stop : ∀ {α : Type} (e : Stop), C α fun _ => Prog.stop e

/-- The property does not look at the caller's buffer. -/
structure Buffered (C : (α : Type) → (Fault → FsM α) → Prop) : Prop where
  get : C FsWorld fun _ => Prog.get
  set : ∀ (b : FsWorld → ByteMap) (t : FsWorld → List Access),
    C Unit fun _ => Prog.modify fun w => { w with buf := b w, trace := t w }

/-- A result may be ignored. -/
def Ignores (C : (α : Type) → (Fault → FsM α) → Prop) : Prop :=
  ∀ {x : Fault → FsM Unit}, C Unit x → C Unit fun f => (x f).ignoreErr

section Walk

variable {W : ByteMap → Nat → Nat → Prop} {C : (α : Type) → (Fault → FsM α) → Prop}

namespace Walk

theorem ite (_ : Walk E W C) {b : Prop} [Decidable b] {x y : Fault → FsM α} (hx : C α x)
    (hy : C α y) : C α fun f => if b then x f else y f := by
  by_cases hb : b
  · simp only [if_pos hb]
    exact hx
  · simp only [if_neg hb]
    exact hy

variable (h : Walk E W C)
include h

-- the cipher is not a disk access: it is the same under every fault

theorem decryptBlock (index : Nat) (ctx : AesCtx) :
    C _ fun f => decryptBlock (E.withFault f) d index ctx :=
  h.bind (h.read _ _) fun buffer => h.pure (aesCtrXcryptBuffer E ctx buffer 0 4096)

theorem encryptBlock (hW : BlockIn d W index) (ctx : AesCtx) (buffer : ByteMap) :
    C _ fun f => encryptBlock (E.withFault f) d index ctx buffer :=
  h.bind (h.write (aesCtrXcryptBuffer E ctx buffer 0 4096).2 _ _ (hW.1 _)) fun _ =>
    h.write _ _ _ hW.2

theorem copyBlockFrom (src dst : Nat) :
    ∀ n i ctxDec ctxEnc, (∀ k, i ≤ k → k < i + n → BlockIn d W (dst + k)) →
      C _ fun f => copyBlockFrom (E.withFault f) d src dst n i ctxDec ctxEnc := by
  intro n
  induction n with
  | zero => exact fun _ _ _ _ => h.pure _
  | succ n ih =>
    intro i ctxDec ctxEnc hW
    refine h.bind (h.decryptBlock _ _) fun r => ?_
    refine h.bind (h.encryptBlock (hW i (Nat.le_refl i) (by omega)) _ _) fun _ => ?_
    exact ih _ _ (nextCtx E ctxEnc) fun k h1 h2 => hW k (by omega) (by omega)

theorem blocksAvailFrom (startBlock : Nat) :
    ∀ n i addr, C _ fun f => blocksAvailFrom (E.withFault f) startBlock n i addr := by
  intro n
  induction n with
  | zero => exact fun _ _ => h.pure _
  | succ n ih =>
    intro i addr
    refine h.bind (h.read _ _) fun dest => ?_
    exact h.ite (h.pure _) (ih _ _)

theorem probeGrowth (e : ByteMap) (newBlock : Nat) :
    C _ fun f => probeGrowth (E.withFault f) d e newBlock :=
  h.ite (h.bind (h.blocksAvailFrom _ _ _ _) fun v => h.pure (some v)) (h.pure _)

theorem writePartial (e : ByteMap) (ctx : AesCtx) (block : ByteMap)
    (hW : offset % 4096 ≠ 0 → BlockIn d W (Entry.startBlock e + offset / 4096)) :
    C _ fun f => writePartial (E.withFault f) d e ctx block offset := by
  unfold Fs.writePartial
  split
  · next hp => exact h.bind (h.encryptBlock (hW hp) _ _) fun _ => h.pure (nextCtx E ctx)
  · exact h.pure _

theorem clearAvailability (first : Nat) :
    ∀ n i, (∀ k, i ≤ k → k < i + n → W ZERO (d.availBlockTableOffset + sext (first + k)) 1) →
      C _ fun f => clearAvailability (E.withFault f) d first n i := by
  intro n
  induction n with
  | zero => exact fun _ _ => h.pure _
  | succ n ih =>
    intro i hW
    refine h.bind (h.write _ _ _ (hW i (Nat.le_refl i) (by omega))) fun _ => ?_
    exact ih _ fun k h1 h2 => hW k (by omega) (by omega)

theorem mergePartial (hb : Buffered C) (e : ByteMap) (offset : Nat) :
    C _ fun f => mergePartial (E.withFault f) d e offset := by
  refine h.ite (h.bind (h.decryptBlock _ (aesInitCtxIv E _ _)) fun _ => ?_) (h.pure _)
  exact h.bind hb.get fun w => h.bind (hb.set _ _) fun _ => h.pure _

theorem writeLoop (hb : Buffered C) (hi : Ignores C) (index : Nat) :
    ∀ n i ctx, (∀ k, i ≤ k → k < i + n → BlockIn d W (index + k)) →
      C _ fun f => writeLoop (E.withFault f) d index n i ctx := by
  intro n
  induction n with
  | zero => exact fun _ _ _ => h.pure _
  | succ n ih =>
    intro i ctx hW
    refine h.bind ?_ fun _ => ih _ (nextCtx E ctx) fun k h1 h2 => hW k (by omega) (by omega)
    refine h.bind hb.get fun w => ?_
    refine h.bind (hb.set (fun w => (aesCtrXcryptBuffer E ctx w.buf _ 4096).2) _) fun _ => ?_
    exact hi (h.encryptBlock (hW i (Nat.le_refl i) (by omega)) _ _)

theorem writeRest (hb : Buffered C) (hi : Ignores C) (e : ByteMap) (ctx : AesCtx)
    (total : Nat)
    (hW : ∀ k < newBlock, BlockIn d W (Entry.startBlock e + sizeToBlock offset + k)) :
    C _ fun f => writeRest (E.withFault f) d e ctx offset total newBlock :=
  h.ite (h.bind (h.writeLoop hb hi _ _ _ _ fun k _ hk => hW k (by omega)) fun _ => h.pure _)
    (h.pure _)

/-- The entry is cleared before the block loop of `unref_inode` looks at
it, so that loop does not turn. -/
theorem releaseEntry (e : ByteMap) : C _ fun f => releaseEntry (E.withFault f) d e := by
  have hb : Entry.blockCount (fill e 0 304 0) = 0 := load_fill_zero (by omega)
  refine h.ite (h.bind ?_ fun _ => h.pure _) (h.pure _)
  rw [hb]
  exact h.pure _

end Walk

namespace Search

variable (h : Search E W C)
include h

theorem assert (b : Prop) [Decidable b] : C Unit fun _ => Prog.assert b :=
  h.ite (h.pure ()) (h.stop _)

theorem failIf (b : Prop) [Decidable b] (e : Stop) : C Unit fun _ => Prog.failIf b e :=
  h.ite (h.stop _) (h.pure ())

-- the block layer

theorem searchFreeFrom (n : Nat) :
    ∀ rest s c addr, C _ fun f => searchFreeFrom (E.withFault f) n rest s c addr := by
  intro rest
  induction rest with
  | zero =>
    intro s c addr
    exact h.ite (h.pure _) (h.stop _)
  | succ rest ih =>
    intro s c addr
    refine h.ite (h.bind (h.read _ _) fun dest => ?_) ?_
    · exact h.ite (ih _ _ _) (ih _ _ _)
    · exact h.ite (h.pure _) (h.stop _)

theorem relocate (hi : Ignores C) (hdraw : ∀ n, C _ fun _ => fsrng E n)
    (hW : ∀ index, BlockIn d W index) (aba : Option Nat) (e : ByteMap) (total offset : Nat) :
    C _ fun f => relocate (E.withFault f) d aba e total offset := by
  refine h.ite (h.bind (h.searchFreeFrom _ _ _ _ _) fun first => ?_) (h.pure _)
  refine h.bind (hdraw _) fun key => h.bind (hdraw _) fun iv => ?_
  refine h.bind (hi ?_) fun _ => h.pure _
  exact h.copyBlockFrom _ _ _ _ (aesInitCtxIv E _ _) (aesInitCtxIv E key _) fun _ _ _ => hW _

theorem readLoop (hb : Buffered C) (e : ByteMap) (size offset : Nat) :
    ∀ fuel idx done, C _ fun f => readLoop (E.withFault f) d e size offset fuel idx done := by
  intro fuel
  induction fuel with
  | zero => exact fun _ _ => h.stop _
  | succ fuel ih =>
    intro idx done
    refine h.ite (h.bind (h.decryptBlock _ (aesInitCtxIv E _ _)) fun r => ?_) (h.pure _)
    exact h.bind (hb.set _ _) fun _ => ih _ _

theorem fsRead (hb : Buffered C) (fuel ino size offset : Nat) :
    C _ fun f => fsRead (E.withFault f) d fuel ino size offset := by
  refine h.ite (h.stop _) (h.bind (h.read _ _) fun e => ?_)
  exact h.ite (h.pure _) (h.readLoop hb _ _ _ _ _ _)

-- the inode table

theorem searchInodeFrom : ∀ n i, C _ fun f => searchInodeFrom (E.withFault f) d n i := by
  intro n
  induction n with
  | zero => exact fun _ => h.stop _
  | succ n ih =>
    intro i
    refine h.bind (h.read _ _) fun used => ?_
    exact h.ite (h.pure _) (ih _)

theorem unrefInode (hW : ∀ src, W src (d.inodeTableOffset + ino * 304) 304) :
    C _ fun f => unrefInode (E.withFault f) d ino := by
  refine h.bind (h.read _ _) fun e => h.bind (h.assert _) fun _ => ?_
  exact h.bind (h.releaseEntry _) fun _ => h.write _ _ _ (hW _)

-- the tree

theorem followNode (nd : ByteMap) (edge : Path) :
    C _ fun f => followNode (E.withFault f) d nd edge := by
  unfold Fs.followNode
  split
  · exact h.stop _
  · exact h.bind (h.read _ _) fun _ => h.pure _

theorem searchFrom :
    ∀ fuel path idx nd, C _ fun f => searchFrom (E.withFault f) d fuel path idx nd := by
  intro fuel
  induction fuel with
  | zero =>
    intro path idx nd
    cases path with
    | nil => exact h.pure _
    | cons c cs => exact h.stop _
  | succ fuel ih =>
    intro path idx nd
    cases path with
    | nil => exact h.pure _
    | cons c cs =>
      refine h.bind (h.failIf _ _) fun _ => ?_
      exact h.bind (h.followNode _ _) fun r => ih _ _ _

theorem searchNode (path : Path) : C _ fun f => searchNode (E.withFault f) d path :=
  h.bind (h.assert _) fun _ => h.bind (h.read _ _) fun _ => h.searchFrom _ _ _ _

theorem splitPath (path : Path) : C _ fun _ => splitPath path := by
  unfold Fs.splitPath
  split
  · exact h.stop _
  · exact h.pure _

theorem findChild (nd : ByteMap) (name : Path) :
    ∀ n i, C _ fun _ => findChild nd name n i := by
  intro n
  induction n with
  | zero => exact fun _ => h.pure _
  | succ n ih =>
    intro i
    exact h.ite (h.stop _) (h.ite (h.pure _) (ih _))

theorem searchNodeFrom : ∀ n i, C _ fun f => searchNodeFrom (E.withFault f) d n i := by
  intro n
  induction n with
  | zero => exact fun _ => h.stop _
  | succ n ih =>
    intro i
    refine h.bind (h.read _ _) fun used => ?_
    exact h.ite (h.pure _) (ih _)

end Search

end Walk

-- ==== discipline

/-- A relation that the reads of the disk respect, and the writes in
`W`. -/
structure Discipline (E : FsEnv) (W : ByteMap → Nat → Nat → Prop)
    (R : FsWorld → FsWorld → Prop) : Prop where
  refl : ∀ w, R w w
  trans : ∀ {a b c}, R a b → R b c → R a c
  read : ∀ start size, Keeps R (fsdr E start size)
  write : ∀ src start size, W src start size → Keeps R (fsdw E src start size)

/-- The search returns an inode number it has looked at. -/
theorem searchInodeFrom_range :
    ∀ n i w, searchInodeFrom E d n i w = (.ok r, w') → i ≤ r ∧ r < i + n := by
  intro n
  induction n with
  | zero => exact fun i w h => by cases h
  | succ n ih =>
    intro i w h
    obtain ⟨used, w1, -, h⟩ := bind_ok.mp h
    split at h
    · cases h
      omega
    · have := ih _ _ h
      omega

namespace Discipline

variable {W : ByteMap → Nat → Nat → Prop} {R : FsWorld → FsWorld → Prop}

/-- The relation does not look at the caller's buffer. -/
def BufferFree (R : FsWorld → FsWorld → Prop) : Prop :=
  ∀ w b t, R w { w with buf := b, trace := t }

/-- A relation that looks neither at the disk nor at the number of
accesses. -/
theorem of_rest (hrefl : ∀ w, R w w) (htrans : ∀ {a b c}, R a b → R b c → R a c)
    (hR : ∀ w disk io, R w { w with disk := disk, io := io }) :
    Discipline E (fun _ _ _ => True) R where
  refl := hrefl
  trans := htrans
  read start size w := by
    unfold fsdr
    split <;> exact hR w _ _
  write src start size _ w := by
    unfold fsdw
    split <;> exact hR w _ _

theorem ignores (_ : Discipline E W R) : Ignores fun _ x => Keeps R (x E.fault) :=
  Keeps.ignoreErr

variable (h : Discipline E W R)
include h

theorem pure (a : α) : Keeps R (pure a : FsM α) := Keeps.pure h.refl a

theorem stop (e : Stop) : Keeps R (Prog.stop e : FsM α) := Keeps.stop h.refl e

theorem bind {x : FsM α} {f : α → FsM β} (hx : Keeps R x) (hf : ∀ a, Keeps R (f a)) :
    Keeps R (x >>= f) :=
  Keeps.bind (fun h1 h2 => h.trans h1 h2) hx hf

theorem walk : Search E W fun _ x => Keeps R (x E.fault) where
  pure := h.pure
  bind := h.bind
  read := h.read
  write := h.write
  stop := h.stop

theorem buffered (hb : BufferFree R) : Buffered fun _ x => Keeps R (x E.fault) where
  get w := h.refl w
  set _ _ w := hb w _ _

theorem fsAllocInode
    (hW : ∀ src i, 1 ≤ i → i ≤ d.inodeCount → W src (d.inodeTableOffset + i * 304) 304) :
    Keeps R (fsAllocInode E d) := by
  refine Keeps.bind_of (Q := fun i => 1 ≤ i ∧ i ≤ d.inodeCount)
    (fun h1 h2 => h.trans h1 h2) (h.walk.searchInodeFrom _ _) (fun w i w' hi => ?_)
    fun i hi => ?_
  · have hr := searchInodeFrom_range _ _ _ hi
    omega
  · refine h.bind (h.read _ _) fun e => ?_
    exact h.bind (h.write _ _ _ (hW _ i hi.1 hi.2)) fun _ => h.pure _

end Discipline

/-- A write outside `P`. -/
def Outside (P : Nat → Prop) (_src : ByteMap) (start size : Nat) : Prop :=
  ∀ a, P a → ¬ (u64 start ≤ a ∧ a < u64 start + size)

theorem Spares.discipline (E : FsEnv) (P : Nat → Prop) :
    Discipline E (Outside P) fun w w' => ∀ a, P a → w'.disk a = w.disk a where
  refl _ _ _ := rfl
  trans h1 h2 a ha := (h2 a ha).trans (h1 a ha)
  read := fsdr_spares
  write _ _ _ h := fsdw_spares h

theorem Spares.walk (E : FsEnv) (P : Nat → Prop) : Search E
    (Outside P) fun _ x => Spares P (x E.fault) :=
  (Spares.discipline E P).walk

theorem Spares.bufferFree (P : Nat → Prop) :
    Discipline.BufferFree fun w w' => ∀ a, P a → w'.disk a = w.disk a :=
  fun _ _ _ _ _ => rfl

theorem Spares.buffered (E : FsEnv) (P : Nat → Prop) : Buffered fun _ x => Spares P
    (x E.fault) :=
  (Spares.discipline E P).buffered (Spares.bufferFree P)

theorem Spares.ignores (E : FsEnv) (P : Nat → Prop) : Ignores fun _ x => Spares P
    (x E.fault) :=
  Spares.ignoreErr

-- ==== block layer

/-- Every block lies behind the inode table. -/
theorem blockIn_low (index : Nat) : BlockIn fsdesc (Outside Low) index := by
  have h1 := u32_lt (u32 index * 4096)
  have h2 := u32_lt index
  refine ⟨fun src a ha hin => ?_, fun a ha hin => ?_⟩ <;>
  · simp only [fsdesc, u64, Low] at *
    omega

theorem searchInodeFrom_spares (n i : Nat) : Spares P (searchInodeFrom E d n i) :=
  (Spares.walk E P).searchInodeFrom _ _

theorem mergePartial_disk
    (h : mergePartial E d e offset w = (.ok block, w')) : w'.disk = w.disk :=
  funext fun a => ((Spares.walk E _).mergePartial (Spares.buffered E fun _ => True) _ _).of_run
    h a trivial

theorem writeRest_spares (e : ByteMap) (ctx : AesCtx) (offset totalBlock newBlock : Nat) :
    Spares Low (writeRest E fsdesc e ctx offset totalBlock newBlock) :=
  (Spares.walk E Low).writeRest (Spares.buffered E Low) (Spares.ignores E Low) _ _ _
    fun _ _ => blockIn_low _

-- ==== the tree

theorem searchNode_spares (path : Path) : Spares P (searchNode E d path) :=
  (Spares.walk E P).searchNode _

theorem splitPath_spares (path : Path) : Spares P (splitPath path) :=
  (Spares.walk plainEnv P).splitPath _

theorem findChild_spares (nd : ByteMap) (name : Path) (n i : Nat) :
    Spares P (findChild nd name n i) :=
  (Spares.walk plainEnv P).findChild _ _ _ _

theorem searchNodeFrom_spares (n i : Nat) : Spares P (searchNodeFrom E d n i) :=
  (Spares.walk E P).searchNodeFrom _ _

/-- Writing a tree node spares the inode table: node indices are
32-bit. -/
theorem nodeWrite_spares (h : idx < 2 ^ 32) :
    Spares Low (fsdw E src (fsdesc.treeOffset + idx * 1160) 1160) :=
  fsdw_spares_low (by simp only [fsdesc]; omega) (by simp only [fsdesc]; omega)

theorem usageWrite_spares (h : idx < 2 ^ 32) :
    Spares Low (fsdw E src (fsdesc.treeUsageOffset + idx) 1) :=
  fsdw_spares_low (by simp only [fsdesc]; omega) (by simp only [fsdesc]; omega)

theorem fsTouch_spares (path : Path) (value : Nat) :
    Spares Low (fsTouch E fsdesc path value) := by
  refine Spares.bind (splitPath_spares _) fun pc => ?_
  refine Spares.bind (Spares.assert _) fun _ => ?_
  refine Spares.bind (searchNode_spares _) fun r => ?_
  refine Spares.bind (findChild_spares _ _ _ _) fun found => ?_
  cases found with
  | some i => exact Spares.stop _
  | none =>
    refine Spares.bind (Spares.failIf _ _) fun _ => ?_
    refine Spares.bind (searchNodeFrom_spares _ _) fun i => ?_
    refine Spares.bind (Spares.failIf _ _) fun _ => ?_
    refine Spares.bind (Spares.ignoreErr (nodeWrite_spares (u32_lt _))) fun _ => ?_
    refine Spares.bind (Spares.ignoreErr (usageWrite_spares (u32_lt _))) fun _ => ?_
    exact Spares.ignoreErr (nodeWrite_spares (u32_lt _))

/-- Past the end of the table, `unref_inode` spares it. -/
theorem unrefInode_spares (h16 : 16 ≤ ino) (h32 : ino < 2 ^ 32) :
    Spares Low (unrefInode E fsdesc ino) := by
  refine (Spares.walk E Low).unrefInode fun src a ha hin => ?_
  have haddr : u64 (fsdesc.inodeTableOffset + ino * 304) = 12 + ino * 304 :=
    Nat.mod_eq_of_lt (by simp only [fsdesc]; omega)
  rw [haddr] at hin
  unfold Low at ha
  omega

-- ==== reading

/-- Reading changes no disk byte. -/
theorem fsRead_spares (fuel ino size offset : Nat) :
    Spares P (fsRead E d fuel ino size offset) :=
  (Spares.walk E P).fsRead (Spares.buffered E P) _ _ _ _

-- ==== writing

/-- The entry `fs_write` reads. -/
def readEntry (disk : ByteMap) (ino : Nat) : ByteMap := slice disk (u64 (entryAddr ino)) 304

/-- `fs_write` up to the block loop. -/
def writeFront (E : FsEnv) (ino size offset : Nat) :
    FsM (Option Nat × Nat × ByteMap × AesCtx) :=
  if FS_IO_MAX_SIZE < size then Prog.stop (.err (-einval))
  else do
    let e ← fsdr E (entryAddr ino) 304
    if Entry.size e < offset then Prog.stop (.err (-einval))
    else do
      let totalBlock := sizeToBlock (u64 (offset + size))
      let newBlock := subU32 totalBlock (Entry.blockCount e)
      let aba ← probeGrowth E fsdesc e newBlock
      let partialBlock ← mergePartial E fsdesc e offset
      let e ← relocate E fsdesc aba e totalBlock offset
      let iv := (Entry.cipherIv e + offset / 4096) % 2 ^ 128
      let ctx := aesInitCtxIv E (Entry.cipherKey e) iv
      let ctx ← writePartial E fsdesc e ctx partialBlock offset
      pure (aba, newBlock, e, ctx)

/-- `fs_write` after it. -/
def writeEnd (E : FsEnv) (ino size offset : Nat) (aba : Option Nat) (newBlock : Nat)
    (e : ByteMap) : FsM Nat := do
  fsdw E (Entry.setSize e (u64 (offset + size))) (entryAddr ino) 304
  Prog.when (aba = some 0)
    (clearAvailability E fsdesc (Entry.startBlock e)
      (subU32 (sizeToBlock (u64 (offset + size))) newBlock) 0)
  pure size

theorem fsWrite_split (ino size offset : Nat) : fsWrite E fsdesc ino size offset
    = writeFront E ino size offset >>= fun r =>
      writeRest E fsdesc r.2.2.1 r.2.2.2 offset (sizeToBlock (u64 (offset + size))) r.2.1
        >>= fun e => writeEnd E ino size offset r.1 r.2.1 e := by
  funext w
  unfold fsWrite writeFront
  by_cases hmax : FS_IO_MAX_SIZE < size
  · rw [if_pos hmax, if_pos hmax]
    rfl
  rw [if_neg hmax, if_neg hmax, Prog.bind_assoc]
  refine congrFun (congrArg (fsdr E (entryAddr ino) 304 >>= ·) (funext fun e => ?_)) w
  by_cases hoff : Entry.size e < offset
  · rw [if_pos hoff, if_pos hoff]
    rfl
  rw [if_neg hoff, if_neg hoff]
  simp only [Prog.bind_assoc, Prog.pure_bind]
  rfl

theorem Search.writeFront {W : ByteMap → Nat → Nat → Prop}
    {C : (α : Type) → (Fault → FsM α) → Prop} (h : Search E W C) (hb : Buffered C)
    (hi : Ignores C) (hdraw : ∀ n, C _ fun _ => fsrng E n) (hW : ∀ index, BlockIn fsdesc W index)
    (ino size offset : Nat) : C _ fun f => writeFront (E.withFault f) ino size offset := by
  refine h.ite (h.stop _) (h.bind (h.read _ _) fun e => ?_)
  refine h.ite (h.stop _) (h.bind (h.probeGrowth _ _) fun aba => ?_)
  refine h.bind (h.mergePartial hb _ _) fun block => ?_
  refine h.bind (h.relocate hi hdraw hW _ _ _ _) fun e' => ?_
  exact h.bind (h.writePartial _ (aesInitCtxIv E _ _) _ fun _ => hW _) fun _ => h.pure _

theorem Walk.writeEnd {C : (α : Type) → (Fault → FsM α) → Prop}
    (h : Walk E (fun _ _ _ => True) C) (ino size offset : Nat) (aba : Option Nat) (new : Nat)
    (e : ByteMap) : C _ fun f => writeEnd (E.withFault f) ino size offset aba new e := by
  refine h.bind (h.write _ _ _ trivial) fun _ => ?_
  exact h.bind (h.ite (h.clearAvailability _ _ _ fun _ _ _ => trivial) (h.pure _)) fun _ => h.pure _

/-- `fs_write` reaches the inode table only at its end. -/
theorem writeFront_spares (ino size offset : Nat) :
    Spares Low (writeFront E ino size offset) :=
  (Spares.walk E Low).writeFront (Spares.buffered E Low) (Spares.ignores E Low) fsrng_spares
    blockIn_low _ _ _

end RojocOS.Fs
