/-
What a removal erases.

# The defect

`unref_inode` clears the entry and then loops over its blocks, with the
start and the count read from the cleared entry: the loop never turns. So
`fs_remove` leaves every data block and every usage byte as it was
(`removeDisk_data`), and only the entry is gone.

# What does hold

A removal erases what it should exactly when there is nothing to erase
(`secure_delete_iff`). That a file with blocks always has something left
to erase is an invariant of the runs that stay inside the volume
(`Laid`): a write that gives the file a new block encrypts, and marks, one
of the file's blocks, and no mark is ever taken back.
-/
import RojocOS.Fs.Proofs.Keys
import RojocOS.Fs.Proofs.Relocation

namespace RojocOS.Fs

open ByteMap Prog

variable {E : FsEnv} {ctx : AesCtx} {d1 d2 d3 src : ByteMap} {index new total y : Nat}
  {op : FsOp} {p : Path}
variable {disk disk' e e' : ByteMap} {a i ino k n offset size u v x : Nat}
  {w w' : FsWorld} {name par : Path}

-- ==== marks stay

/-- The tree is the same, and no mark of the usage map was cleared. -/
def Lay (disk disk' : ByteMap) : Prop :=
  (∀ a, 4892 ≤ a → a < 88988 → disk' a = disk a)
    ∧ ∀ b < 16, disk (4876 + b) ≠ 0 → disk' (4876 + b) ≠ 0

theorem Lay.refl (disk : ByteMap) : Lay disk disk :=
  ⟨fun _ _ _ => rfl, fun _ _ h => h⟩

theorem Lay.trans (h : Lay d1 d2) (h' : Lay d2 d3) : Lay d1 d3 :=
  ⟨fun a h1 h2 => (h'.1 a h1 h2).trans (h.1 a h1 h2),
    fun b hb hm => h'.2 b hb (h.2 b hb hm)⟩

/-- A copy below the usage map, in the data area, or of marks. -/
theorem Lay.copy (h : a + n ≤ 4876 ∨ 88988 ≤ a ∨ (src = ONE ∧ 4876 ≤ a ∧ a + n ≤ 4892)) :
    Lay disk (copy disk a src 0 n) := by
  refine ⟨fun x h1 h2 => copy_of_not_mem (by omega), fun b hb hm => ?_⟩
  by_cases hin : a ≤ 4876 + b ∧ 4876 + b < a + n
  · obtain ⟨rfl, -, -⟩ := (h.resolve_left (by omega)).resolve_left (by omega)
    rw [copy_of_mem hin]
    exact (by decide : (1 : UInt8) ≠ 0)
  · rw [copy_of_not_mem hin]
    exact hm

/-- Such a write. -/
def LayWrite (src : ByteMap) (start size : Nat) : Prop :=
  u64 start + size ≤ 4876 ∨ 88988 ≤ u64 start
    ∨ (src = ONE ∧ 4876 ≤ u64 start ∧ u64 start + size ≤ 4892)

theorem Lay.discipline (E : FsEnv) :
    Discipline E LayWrite fun w w' => Lay w.disk w'.disk where
  refl w := Lay.refl w.disk
  trans h h' := h.trans h'
  read start size w := by
    unfold fsdr
    split <;> exact Lay.refl w.disk
  write src start size hW w := by
    unfold fsdw
    split
    · exact Lay.copy hW
    · next m _ =>
        refine Lay.copy (hW.imp (fun h => ?_) (Or.imp_right fun ⟨h0, h1, h2⟩ => ⟨h0, h1, ?_⟩))
        · omega
        · omega

theorem Lay.bufferFree : Discipline.BufferFree fun w w' => Lay w.disk w'.disk :=
  fun w _ _ => Lay.refl w.disk

theorem blockIn_lay (h : index < 16) : BlockIn fsdesc LayWrite index := by
  have hu : u32 index = index := Nat.mod_eq_of_lt (by omega)
  have hb : u32 (index * 4096) = index * 4096 := Nat.mod_eq_of_lt (by omega)
  refine ⟨fun src => .inr (.inl ?_), .inr (.inr ⟨rfl, ?_, ?_⟩)⟩ <;>
  · simp only [fsdesc, hu, hb, u64]
    omega

-- ==== one write

/-- "Handle the rest of the blocks": the first of the new blocks is
marked. -/
theorem writeRest_marks (hE : E.Reliable) (hnew : 0 < new)
    (hroom : Entry.startBlock e + sizeToBlock offset + new ≤ 16)
    (h : writeRest E fsdesc e ctx offset total new w = (.ok e', w')) :
    w'.disk (4876 + (Entry.startBlock e + sizeToBlock offset)) ≠ 0 := by
  obtain ⟨n, rfl⟩ := Nat.exists_eq_succ_of_ne_zero (Nat.ne_of_gt hnew)
  unfold writeRest at h
  rw [if_pos (Nat.succ_ne_zero n)] at h
  obtain ⟨_, w2, hloop, h⟩ := bind_ok.mp h
  cases h
  obtain ⟨_, w1, hcall, hrest⟩ := bind_ok.mp hloop
  rw [encryptCaller_eq hE (by omega)] at hcall
  cases hcall
  have hd := Lay.discipline E
  have hlay := (hd.walk.writeLoop (hd.buffered Lay.bufferFree) hd.ignores _ _ _ _
    fun k _ hk => blockIn_lay (by omega)).of_run hrest
  refine hlay.2 _ (by omega) ?_
  show putBlock E w.disk _ ctx _ _ ≠ 0
  unfold putBlock
  rw [copy_of_mem (by omega)]
  exact (by decide : (1 : UInt8) ≠ 0)

/-- What a write inside the volume leaves: an entry in range, and a mark
on one of its blocks when it has more of them. -/
structure LaidWrite (disk : ByteMap) (ino size offset : Nat) (w : FsWorld) (e' : ByteMap) :
    Prop where
  length : Entry.size e' = offset + size
  count : Entry.blockCount e' = (offset + size + 4095) / 4096
  room : Entry.startBlock e' + (offset + size + 4095) / 4096 ≤ 16
  table : ∀ a, Low a → 16 ≤ a → w.disk a = copy disk (entryAddr ino) e' 0 304 a
  lay : Lay disk w.disk
  same : Entry.blockCount (entryAt disk ino) = (offset + size + 4095) / 4096 →
    Entry.startBlock e' = Entry.startBlock (entryAt disk ino)
  grown : Entry.blockCount (entryAt disk ino) < (offset + size + 4095) / 4096 →
    ∃ b, Entry.startBlock e' ≤ b ∧ b < Entry.startBlock e' + (offset + size + 4095) / 4096
      ∧ w.disk (4876 + b) ≠ 0

theorem fsWrite_laid (hE : E.Reliable) (h16 : ino < 16) (hvol : offset + size ≤ 65536)
    (hcnt : Entry.blockCount (entryAt w.disk ino) ≤ (offset + size + 4095) / 4096)
    (hroom : Entry.startBlock (entryAt w.disk ino) + (offset + size + 4095) / 4096 ≤ 16)
    (hlen : Entry.size (entryAt w.disk ino) ≤ 4096 * Entry.blockCount (entryAt w.disk ino))
    (h : fsWrite E fsdesc ino size offset w = (.ok n, w')) :
    ∃ e', LaidWrite w.disk ino size offset w' e' := by
  have h32 : ino < 2 ^ 32 := Nat.lt_trans h16 (by decide)
  obtain ⟨aba, e1, ctx, w1, e2, w2, hf, hrest, hend⟩ := fsWrite_parts h32 h
  have hw := hf.wrote h32 hrest hend
  obtain ⟨-, hstart, -⟩ := hf.rest hrest
  have hinside := hf.inside
  have htotal := sizeToBlock_small hvol
  have hu : u64 (offset + size) = offset + size := u64_of_lt (by omega)
  have hnew : newBlocks (entryAt w.disk ino) size offset
      = (offset + size + 4095) / 4096 - Entry.blockCount (entryAt w.disk ino) := by
    unfold newBlocks
    rw [htotal]
    unfold subU32 u32
    omega
  have hfirst : sizeToBlock offset ≤ Entry.blockCount (entryAt w.disk ino) := by
    unfold sizeToBlock u64 u32
    omega
  have hroom1 : Entry.startBlock e1 + (offset + size + 4095) / 4096 ≤ 16 := by
    by_cases ha : aba = some 0
    · rw [← htotal]
      exact (hf.moved ha).1
    · rw [(hf.stay ha).1]
      exact hroom
  have hd := Lay.discipline E
  have hlay1 : Lay w.disk w1.disk := hf.keeps hd Lay.bufferFree (fun _ w => Lay.refl w.disk)
    (fun _ k hk => blockIn_lay (by unfold u32 at hk; omega)) fun hp => blockIn_lay (by omega)
  have hlay2 : Lay w1.disk w2.disk :=
    (hd.walk.writeRest (hd.buffered Lay.bufferFree) hd.ignores _ _ _
      fun k hk => blockIn_lay (by omega)).of_run hrest
  -- behind the table, the end of the call changes nothing
  have hhigh : ∀ a, 4876 ≤ a → w'.disk a = w2.disk a := by
    intro a ha
    rcases (writeEnd_ok h32 hend).2.2 a with hsame | ⟨-, -, hlt⟩
    · exact hsame.trans (copy_of_not_mem (by unfold entryAddr; omega))
    · rw [newBlocks_back, hstart] at hlt
      omega
  have hlay3 : Lay w2.disk w'.disk := by
    refine ⟨fun a h1 _ => hhigh a (by omega), fun b _ hm => ?_⟩
    rw [hhigh _ (by omega)]
    exact hm
  have hstart' : Entry.startBlock (Entry.setSize e2 (u64 (offset + size)))
      = Entry.startBlock e1 := (load_store_of_disjoint (by omega)).trans hstart
  refine ⟨_, hw.length.trans hu, hw.count.trans htotal, ?_, hw.table_above 16 (by decide) ?_,
    hlay1.trans (hlay2.trans hlay3), fun hsame => ?_, fun hgrow => ?_⟩
  · rw [hstart']
    exact hroom1
  · intro _
    rw [hstart']
    omega
  · rw [hstart', (hf.stay fun ha => ?_).1]
    obtain ⟨k, hk, -⟩ := hf.crowded.mp ha
    omega
  · rw [hstart']
    refine ⟨Entry.startBlock e1 + sizeToBlock offset, by omega, by omega, ?_⟩
    exact hlay3.2 _ (by omega) (writeRest_marks hE (by omega) (by omega) hrest)

-- ==== the invariant

/-- The files of the table `tbl`, with the marks of `disk`: no file is
longer than its blocks, all blocks are in the volume, and a file with
blocks has a marked one. -/
structure Files (tbl disk : ByteMap) : Prop where
  length : ∀ i < 16, Entry.size (entryAt tbl i) ≤ 4096 * Entry.blockCount (entryAt tbl i)
  room : ∀ i < 16,
    Entry.startBlock (entryAt tbl i) + Entry.blockCount (entryAt tbl i) ≤ 16
  marked : ∀ i < 16, 0 < Entry.blockCount (entryAt tbl i) →
    ∃ b, Entry.startBlock (entryAt tbl i) ≤ b
      ∧ b < Entry.startBlock (entryAt tbl i) + Entry.blockCount (entryAt tbl i)
      ∧ disk (4876 + b) ≠ 0

namespace Files

variable {tbl tbl' disk disk' : ByteMap}

theorem later (h : Files tbl disk)
    (hm : ∀ b < 16, disk (4876 + b) ≠ 0 → disk' (4876 + b) ≠ 0) : Files tbl disk' := by
  refine ⟨h.length, h.room, fun i hi hpos => ?_⟩
  obtain ⟨b, h1, h2, hb⟩ := h.marked i hi hpos
  exact ⟨b, h1, h2, hm b (Nat.lt_of_lt_of_le h2 (h.room i hi)) hb⟩

/-- The fields read lie past byte 16. -/
theorem congr (h : Files tbl disk) (ht : ∀ a, Low a → 16 ≤ a → tbl' a = tbl a) :
    Files tbl' disk := by
  have hload : ∀ i < 16, ∀ b k, 4 ≤ b → b + k ≤ 304 →
      load (entryAt tbl' i) b k = load (entryAt tbl i) b k := by
    intro i hi b k h4 hb
    rw [load_entryAt hb, load_entryAt hb]
    refine load_congr fun x h1 h2 => ht x ?_ ?_
    · exact entryAddr_low hi (by omega)
    · unfold entryAddr at h1
      omega
  refine ⟨fun i hi => ?_, fun i hi => ?_, fun i hi => ?_⟩
  · have := h.length i hi
    unfold Entry.size Entry.blockCount at *
    rw [hload i hi 8 8 (by decide) (by decide), hload i hi 20 4 (by decide) (by decide)]
    exact this
  · have := h.room i hi
    unfold Entry.startBlock Entry.blockCount at *
    rw [hload i hi 16 4 (by decide) (by decide), hload i hi 20 4 (by decide) (by decide)]
    exact this
  · have := h.marked i hi
    unfold Entry.startBlock Entry.blockCount at *
    rw [hload i hi 16 4 (by decide) (by decide), hload i hi 20 4 (by decide) (by decide)]
    exact this

theorem writeEntry (h : Files tbl disk) (hlen : Entry.size e ≤ 4096 * Entry.blockCount e)
    (hroom : Entry.startBlock e + Entry.blockCount e ≤ 16)
    (hmark : 0 < Entry.blockCount e → ∃ b, Entry.startBlock e ≤ b
      ∧ b < Entry.startBlock e + Entry.blockCount e ∧ disk (4876 + b) ≠ 0) :
    Files (copy tbl (entryAddr ino) e 0 304) disk := by
  have hsame : ∀ j, ino ≠ j →
      entryAt (copy tbl (entryAddr ino) e 0 304) j = entryAt tbl j :=
    fun j hj => entryAt_copy_other hj
  have hsize : Entry.size (entryAt (copy tbl (entryAddr ino) e 0 304) ino)
      = Entry.size e := load_entryAt_copy (by omega)
  have hstart : Entry.startBlock (entryAt (copy tbl (entryAddr ino) e 0 304) ino)
      = Entry.startBlock e := load_entryAt_copy (by omega)
  have hcount : Entry.blockCount (entryAt (copy tbl (entryAddr ino) e 0 304) ino)
      = Entry.blockCount e := load_entryAt_copy (by omega)
  refine ⟨fun i hi => ?_, fun i hi => ?_, fun i hi => ?_⟩
  · by_cases hne : ino = i
    · subst hne
      rw [hsize, hcount]
      exact hlen
    · rw [hsame i hne]
      exact h.length i hi
  · by_cases hne : ino = i
    · subst hne
      rw [hstart, hcount]
      exact hroom
    · rw [hsame i hne]
      exact h.room i hi
  · by_cases hne : ino = i
    · subst hne
      rw [hstart, hcount]
      exact hmark
    · rw [hsame i hne]
      exact h.marked i hi

/-- A new reference count is all the same. -/
theorem setRef (h : Files tbl disk) (hi : i < 16) (v : Nat) :
    Files (copy tbl (entryAddr i) (Entry.setRef (entryAt tbl i) v) 0 304) disk := by
  have hstart : Entry.startBlock (Entry.setRef (entryAt tbl i) v)
      = Entry.startBlock (entryAt tbl i) := load_store_of_disjoint (by omega)
  obtain ⟨-, hsize, hcount⟩ := setRef_fields (entryAt tbl i) v
  refine h.writeEntry ?_ ?_ ?_
  · rw [hsize, hcount]
    exact h.length i hi
  · rw [hstart, hcount]
    exact h.room i hi
  · rw [hstart, hcount]
    exact h.marked i hi

theorem clear (h : Files tbl disk) (i : Nat) :
    Files (copy tbl (entryAddr i) ByteMap.zero 0 304) disk := by
  have hz : ∀ b k, load ByteMap.zero b k = 0 := fun b k => load_eq_zero.mpr fun _ _ _ => rfl
  refine h.writeEntry ?_ ?_ ?_
  · unfold Entry.size Entry.blockCount
    rw [hz, hz]
  · unfold Entry.startBlock Entry.blockCount
    rw [hz, hz]
    decide
  · intro hpos
    exact absurd (hz 20 4) (by unfold Entry.blockCount at hpos; omega)

theorem zero : Files ByteMap.zero ByteMap.zero := by
  have hz : ∀ i b k, load (entryAt ByteMap.zero i) b k = 0 := by
    intro i b k
    refine load_eq_zero.mpr fun x _ _ => ?_
    unfold entryAt slice
    split <;> rfl
  refine ⟨fun i _ => ?_, fun i _ => ?_, fun i _ hpos => ?_⟩
  · unfold Entry.size Entry.blockCount
    rw [hz, hz]
  · unfold Entry.startBlock Entry.blockCount
    rw [hz, hz]
    decide
  · exact absurd (hz i 20 4) (by unfold Entry.blockCount at hpos; omega)

end Files

/-- Nodes in order, each with an inode of the table, and files in
order. -/
structure Laid (disk : ByteMap) : Prop where
  nodes : NodesOk disk
  values : ∀ y < 16, Node.value (nodeAt disk y) < 16
  files : Files disk disk

/-- The nodes lie between the usage maps and the data. -/
theorem nodeAt_of_lay (h : Lay disk disk') (hy : y < 16) :
    nodeAt disk' y = nodeAt disk y :=
  nodeAt_congr fun a h1 h2 => h.1 a (by omega) (by omega)

theorem Laid.of_lay (h : Laid disk) (hl : Lay disk disk')
    (hf : Files disk' disk') : Laid disk' := by
  refine ⟨fun y hy => ?_, fun y hy => ?_, hf⟩
  · rw [nodeAt_of_lay hl hy]
    exact h.nodes y hy
  · rw [nodeAt_of_lay hl hy]
    exact h.values y hy

theorem Laid.write (h : Laid disk) (h16 : ino < 16)
    (hcnt : Entry.blockCount (entryAt disk ino) ≤ (offset + size + 4095) / 4096)
    (hw : LaidWrite disk ino size offset w e') : Laid w.disk := by
  refine h.of_lay hw.lay (((h.files.later hw.lay.2).writeEntry ?_ ?_ ?_).congr hw.table)
  · rw [hw.length, hw.count]
    omega
  · rw [hw.count]
    exact hw.room
  · rw [hw.count]
    intro hpos
    rcases Nat.lt_or_ge (Entry.blockCount (entryAt disk ino))
      ((offset + size + 4095) / 4096) with hlt | hge
    · exact hw.grown hlt
    · have hsame := Nat.le_antisymm hcnt hge
      rw [hw.same hsame, ← hsame]
      exact (h.files.later hw.lay.2).marked ino h16 (by omega)

/-- Bytes outside the tree after a removal: the entry of the released
inode, and nothing else. -/
theorem removeDisk_outside (hu : u < 16) (hx : x < 16)
    (hxk : Node.childIndex (nodeAt disk u) k = x) (hv : Node.value (nodeAt disk x) = v)
    (ha : a < 4892 ∨ 88988 ≤ a) :
    removeDisk E disk u k a
      = if v = 0 then disk a
        else copy disk (entryAddr v) (releasedEntry (entryAt (removeSlot E disk u k) v))
          0 304 a := by
  have hval : removedValue E disk u k = v := by
    rw [removedValue_eq, hxk, hv]
  have hslot : removeSlot E disk u k a = disk a := copy_of_not_mem (by omega)
  unfold removeDisk removeUnref
  rw [hxk, hval, copy_of_not_mem (by omega), copy_of_not_mem (by omega)]
  by_cases h0 : v = 0
  · rw [if_neg (not_not_intro h0), if_pos h0]
    exact hslot
  · rw [if_pos h0, if_neg h0]
    unfold unrefDisk copy
    split
    · rfl
    · exact hslot

/-- The entry released is the one on disk. -/
theorem releasedEntry_slot (hv : v < 16) :
    entryAt (removeSlot E disk u k) v = entryAt disk v := by
  refine entryAt_congr fun a _ h2 => copy_of_not_mem ?_
  unfold entryAddr at h2
  omega

theorem Laid.remove (h : Laid disk) (hu : u < 16)
    (hk : k < Node.count (nodeAt disk u)) (hclean : CleanSlot E (nodeAt disk u) k) :
    Laid (removeDisk E disk u k) := by
  have hx := ((h.nodes u hu).1.index k hk).2
  have hv16 := h.values _ hx
  have hout := fun a ha => removeDisk_outside (E := E) (a := a) hu hx rfl rfl ha
  refine ⟨h.nodes.remove hu hk hclean, fun y hy => ?_, ?_⟩
  · rw [removeDisk_nodes rfl (h.nodes _ hx).2 hx hy]
    split
    · decide
    · split
      · rw [value_slice, dropChild_value]
        exact h.values u hu
      · exact h.values y hy
  · -- the marks are outside the entries of the table
    have hmark : ∀ b < 16, removeDisk E disk u k (4876 + b) = disk (4876 + b) := by
      intro b hb
      rw [hout _ (by omega)]
      split
      · rfl
      · exact copy_of_not_mem (by unfold entryAddr; omega)
    have hfiles : Files disk (removeDisk E disk u k) := h.files.later fun b hb hm => by
      rw [hmark b hb]
      exact hm
    by_cases h0 : Node.value (nodeAt disk (Node.childIndex (nodeAt disk u) k)) = 0
    · refine hfiles.congr fun a ha _ => ?_
      rw [hout a (.inl (Nat.lt_trans ha (by decide))), if_pos h0]
    · have hent : Files (copy disk (entryAddr (Node.value (nodeAt disk
          (Node.childIndex (nodeAt disk u) k)))) (releasedEntry (entryAt disk
            (Node.value (nodeAt disk (Node.childIndex (nodeAt disk u) k))))) 0 304)
          (removeDisk E disk u k) := by
        unfold releasedEntry
        split
        · exact hfiles.clear _
        · exact hfiles.setRef hv16 _
      refine hent.congr fun a ha _ => ?_
      rw [hout a (.inl (Nat.lt_trans ha (by decide))), if_neg h0, releasedEntry_slot hv16]

theorem Laid.touch (h : Laid disk)
    (ht : TouchOk disk par name u k) (hu : u < 16) (hn : Label name) (hv : v < 16) :
    Laid (touchDisk disk u k name v) := by
  have hout : ∀ a < 4892, touchDisk disk u k name v a = disk a := fun a ha =>
    touchDisk_outside hu ht.index.2 (.inl ha)
  refine ⟨h.nodes.touch ht hu hn (.inl (by omega)) (by omega), fun y hy => ?_, ?_⟩
  · by_cases hyk : y = k
    · rw [hyk, touchDisk_new, newNode_value (by omega)]
      exact hv
    · rw [touchDisk_value ht.index.2 hyk hn.2.2]
      exact h.values y hy
  · refine (h.files.later fun b hb hm => ?_).congr fun a ha _ => ?_
    · rw [hout _ (by omega)]
      exact hm
    · exact hout a (Nat.lt_trans ha (by decide))

-- ==== the runs

/-- The calls of a run that keeps to the volume: files are created with
an inode of the table, removals find a clean slot, and a write ends
inside the volume without dropping a block of its file. -/
def Contained (E : FsEnv) (w : FsWorld) : FsOp → Prop
  | .touch p v => NamedPath p ∧ v < 16
  | .remove p => NamedPath p ∧ FindsClean E w p
  | .write ino _ size offset => ino < 16 ∧ offset + size ≤ 65536
      ∧ Entry.blockCount (entryAt w.disk ino) ≤ (offset + size + 4095) / 4096
      ∧ Entry.startBlock (entryAt w.disk ino) + (offset + size + 4095) / 4096 ≤ 16
  | _ => True

theorem FsOp.exec_laid (hE : E.Reliable) (hc : Contained E w op)
    (hret : returned (op.exec E w).1) (h : Laid w.disk) : Laid (op.exec E w).2.disk := by
  cases op with
  | allocInode =>
    rw [exec_state]
    rcases fsAllocInode_cases hE w with ⟨i, io, h1, h16, -, hrun⟩ | ⟨e, io, hrun, -⟩
    · rw [hrun]
      have hlay : Lay w.disk (copy w.disk (entryAddr i) (Entry.setRef (entryAt w.disk i)
          (Entry.ref (entryAt w.disk i) + 1)) 0 304) :=
        Lay.copy (.inl (by unfold entryAddr; omega))
      exact h.of_lay hlay ((h.files.later hlay.2).setRef h16 _)
    · rw [hrun]
      exact h
  | touch p v =>
    rcases exec_touch_cases hE p v w with ⟨par, name, u, k, hs, ht, hw⟩ | hw
    · rw [hw.disk_eq]
      obtain ⟨-, hne, h0⟩ := hc.1.split hs
      exact h.touch ht (h.nodes.parent_lt hc.1 hs ht.parent) ⟨hne, h0, ht.short⟩ hc.2
    · rw [hw.disk_eq]
      exact h
  | read fuel ino size offset =>
    rw [exec_state]
    rw [Spares.disk_eq (fsRead_spares _ _ _ _)]
    exact h
  | remove p =>
    rcases exec_remove_cases hE hret with ⟨par, name, u, k, hs, hr, hw⟩ | hw
    · rw [hw.disk_eq]
      exact h.remove (h.nodes.parent_lt hc.1 hs hr.parent) hr.slot.1
        (hc.2 par name u k hs hr)
    · rw [hw.disk_eq]
      exact h
  | write ino buf size offset =>
    obtain ⟨h16, hvol, hcnt, hroom⟩ := hc
    rcases exec_write hE hret with ⟨hd, -⟩ | ⟨n, hrun⟩
    · rw [hd]
      exact h
    · obtain ⟨e', hw⟩ := fsWrite_laid (w := { w with buf := buf }) hE h16 hvol hcnt hroom
        (h.files.length ino h16) hrun
      exact h.write h16 hcnt hw

theorem fsRun_laid (hE : E.Reliable)
    (hrun : FsRun E (Contained E) (start E) w) : Laid w.disk := by
  refine hrun.invariant E (fun w => Laid w.disk)
    (fun w op h hc hret => op.exec_laid hE hc hret h) ?_
  rw [start_disk E]
  refine ⟨NodesOk.zero, fun y _ => ?_, Files.zero⟩
  rw [nodeAt_zero]
  decide

-- ==== the theorem

/-- Node `x`, reached by the path `p`, is a file with inode `i`. -/
def FileAt (disk : ByteMap) (p : Path) (x i : Nat) : Prop :=
  ∃ par name u, splitPath p = pure (par, name) ∧ name.length < 32
    ∧ lookup disk 0 (pathParts par) = .ok u ∧ edge disk u name = some x
    ∧ Node.value (nodeAt disk x) = i ∧ i ≠ 0

/-- What the removal of the file with inode `i` should have done. -/
structure Erased (disk disk' : ByteMap) (i : Nat) : Prop where
  entry : ∀ a < 304, disk' (entryAddr i + a) = 0
  blocks : ∀ b, Entry.startBlock (entryAt disk i) ≤ b →
    b < Entry.startBlock (entryAt disk i) + Entry.blockCount (entryAt disk i) →
    ∀ a < 4096, disk' (88988 + b * 4096 + a) = 0
  usage : ∀ b, Entry.startBlock (entryAt disk i) ≤ b →
    b < Entry.startBlock (entryAt disk i) + Entry.blockCount (entryAt disk i) →
    disk' (4876 + b) = 0
  otherEntries : ∀ j < 16, j ≠ i → entryAt disk' j = entryAt disk j
  otherBlocks : ∀ b < 16, ¬ (Entry.startBlock (entryAt disk i) ≤ b
      ∧ b < Entry.startBlock (entryAt disk i) + Entry.blockCount (entryAt disk i)) →
    ∀ a < 4096, disk' (88988 + b * 4096 + a) = disk (88988 + b * 4096 + a)

/-- The slot `fs_remove` works on is the one the path leads to. -/
theorem FileAt.slot (h : NodesOk disk) (hp : NamedPath p)
    (hf : FileAt disk p x i) (hs : splitPath p = pure (par, name))
    (hr : RemoveOk disk par name u k) :
    u < 16 ∧ x < 16 ∧ Node.childIndex (nodeAt disk u) k = x := by
  obtain ⟨par', name', u', hs', hlen, hpar, hedge, -, -⟩ := hf
  obtain ⟨rfl, rfl⟩ := Prod.mk.inj (pure_inj blank (hs.symm.trans hs'))
  obtain rfl : u = u' := Except.ok.inj (hr.parent.symm.trans hpar)
  obtain ⟨-, hne, h0⟩ := hp.split hs
  have hu := h.parent_lt hp hs hpar
  have hdir := (h u hu).1
  obtain ⟨j, hj, rfl⟩ := Option.map_eq_some_iff.mp hedge
  obtain ⟨hjc, hjn⟩ := (hdir.findEdge ⟨hne, h0, hlen⟩).mp hj
  have hkn := (hdir.holds h0 hlen hr.slot.1).mp hr.holds
  have hkj := hdir.distinct k hr.slot.1 j hjc (hkn.trans hjn.symm)
  exact ⟨hu, (hdir.index j hjc).2, by rw [hkj]⟩

/-- In every state of such a run, removing a file with one reference
erases it exactly when it has no block. -/
theorem secure_delete_iff (hE : E.Reliable) {w w' : FsWorld}
    (hrun : FsRun E (Contained E) (start E) w) {p : Path} (hp : NamedPath p) {x i : Nat}
    (hfile : FileAt w.disk p x i) (href : Entry.ref (entryAt w.disk i) = 1)
    (hrm : fsRemove E fsdesc p w = (.ok (), w')) :
    Erased w.disk w'.disk i ↔ Entry.blockCount (entryAt w.disk i) = 0 := by
  have h := fsRun_laid hE hrun
  rcases fsRemove_cases hE p w with
    ⟨par, name, u, k, hs, hr, ⟨-, -, hw⟩ | ⟨-, hpanic⟩⟩ | ⟨⟨e, herr⟩, -⟩
  case inl.inr =>
    rw [hrm] at hpanic
    cases hpanic
  case inr =>
    rw [hrm] at herr
    cases herr
  rw [hrm] at hw
  obtain ⟨hu, hx, hxk⟩ := hfile.slot h.nodes hp hs hr
  obtain ⟨-, -, -, -, -, -, -, hval, hi0⟩ := hfile
  have hi : i < 16 := hval ▸ h.values x hx
  -- outside the tree, the entry is cleared and nothing else changes
  have hout : ∀ a, a < 4892 ∨ 88988 ≤ a →
      w'.disk a = copy w.disk (entryAddr i) zero 0 304 a := by
    intro a ha
    rw [hw.disk_eq, removeDisk_outside hu hx hxk hval ha, if_neg hi0, releasedEntry_slot hi]
    unfold releasedEntry
    rw [if_pos href]
  have hdata : ∀ a, 4876 ≤ a → a < 4892 ∨ 88988 ≤ a → w'.disk a = w.disk a := by
    intro a h1 ha
    rw [hout a ha]
    exact copy_of_not_mem (by unfold entryAddr; omega)
  constructor
  · intro herased
    by_contra hpos
    obtain ⟨b, h1, h2, hm⟩ := h.files.marked i hi (Nat.pos_of_ne_zero hpos)
    have hroom := h.files.room i hi
    have hz := herased.usage b h1 h2
    rw [hdata _ (by omega) (by omega)] at hz
    exact hm hz
  · intro hzero
    refine ⟨fun a ha => ?_, fun b h1 h2 => ?_, fun b h1 h2 => ?_, fun j hj hne => ?_,
      fun b hb _ a ha => hdata _ (by omega) (by omega)⟩
    · rw [hout _ (by unfold entryAddr; omega), copy_of_mem (by omega)]
      rfl
    · omega
    · omega
    · have hcopy : entryAt w'.disk j = entryAt (copy w.disk (entryAddr i) zero 0 304) j :=
        entryAt_congr fun a _ h2 => hout a (by unfold entryAddr at h2; omega)
      rw [hcopy]
      exact entryAt_copy_other (Ne.symm hne)

/-- `/a`, a file with inode 1. -/
def fileOps : List FsOp := [.allocInode, .touch [slash, 97] 1]

theorem fileOps_contained : AllMeet plainEnv (Contained plainEnv)
    (start plainEnv) fileOps :=
  ⟨trivial, by decide +kernel, ⟨by decide, by decide⟩, by decide +kernel, trivial⟩

/-- A file that was never written is erased. -/
theorem secure_delete_unwritten :
    let w := runAll plainEnv (start plainEnv) fileOps
    FileAt w.disk [slash, 97] 1 1
      ∧ ∃ w', fsRemove plainEnv fsdesc [slash, 97] w = (.ok (), w')
        ∧ Erased w.disk w'.disk 1 := by
  intro w
  have hfile : FileAt w.disk [slash, 97] 1 1 :=
    ⟨[slash], [97], 0, splitPath_eq [] (by decide), by decide, ok_of_toOption (by decide +kernel),
      by decide +kernel, by decide +kernel, by decide⟩
  have hrm := eq_of_toOption (by decide +kernel :
    (fsRemove plainEnv fsdesc [slash, 97] w).1.toOption = some ())
  refine ⟨hfile, _, hrm, ?_⟩
  exact (secure_delete_iff plainEnv_reliable (runAll_run plainEnv _ _ fileOps_contained)
    (by decide) hfile (by decide +kernel) hrm).mpr (by decide +kernel)

/-- A file with one byte is removed, and its block and usage byte are
still there. -/
theorem removed_block_remains :
    let w := runAll plainEnv (start plainEnv) (fileOps ++ [.write 1 (fun _ => 65) 1 0])
    FsRun plainEnv (Contained plainEnv) (start plainEnv) w
      ∧ FileAt w.disk [slash, 97] 1 1 ∧ Entry.ref (entryAt w.disk 1) = 1
      ∧ (fsRemove plainEnv fsdesc [slash, 97] w).1.toOption = some ()
      ∧ (fsRemove plainEnv fsdesc [slash, 97] w).2.disk 4876 = 1
      ∧ (fsRemove plainEnv fsdesc [slash, 97] w).2.disk 88988 = 70
      ∧ ¬ Erased w.disk (fsRemove plainEnv fsdesc [slash, 97] w).2.disk 1 := by
  intro w
  have hrun : FsRun plainEnv (Contained plainEnv) (start plainEnv) w :=
    runAll_run plainEnv _ _ ⟨trivial, by decide +kernel, ⟨by decide, by decide⟩,
      by decide +kernel, ⟨by decide, by decide, by decide +kernel, by decide +kernel⟩,
      by decide +kernel, trivial⟩
  refine ⟨hrun, ⟨[slash], [97], 0, splitPath_eq [] (by decide), by decide,
    ok_of_toOption (by decide +kernel), by decide +kernel, by decide +kernel, by decide⟩,
    by decide +kernel, by decide +kernel, by decide +kernel, by decide +kernel, fun h => ?_⟩
  exact absurd (h.usage 0 (by decide +kernel) (by decide +kernel)) (by decide +kernel)

end RojocOS.Fs
