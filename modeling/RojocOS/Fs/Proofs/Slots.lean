/-
Directory nodes seen through their slots.

A slot is 36 bytes: a name, read as a C string, and a node index. The
comparisons of the code (`strcmp` in `follow_node`, `equal_to_buffer` in
`fs_touch` and `fs_remove`) are both equality of that string with a name
that has no NUL and fits in the slot (`strEq_iff`, `equalToBuffer_iff`),
so everything above speaks of `slotName` and `childIndex` only.

The second half is the effect of the code's updates on the slots: a slot
is written, moved or left alone, and the rest of the node is unchanged.
-/
import RojocOS.Fs.Proofs.Tidy

namespace RojocOS.Fs

open ByteMap

variable {disk m src disk' m' nd' : ByteMap} {a i n u x b j v : Nat} {s : Path} {c : Int}
variable {E : FsEnv} {nd : ByteMap}

-- ==== C strings

/-- The C string at `a`, cut off after `n` bytes. -/
def cstr (m : ByteMap) (a : Nat) : Nat → Path
  | 0 => []
  | n + 1 => if m a = 0 then [] else m a :: cstr m (a + 1) n

theorem cstr_congr :
    ∀ {a a'}, (∀ i < n, m' (a' + i) = m (a + i)) → cstr m' a' n = cstr m a n := by
  induction n with
  | zero => exact fun _ => rfl
  | succ n ih =>
    intro a a' h
    have hhd : m' a' = m a := h 0 (Nat.succ_pos n)
    have htl : cstr m' (a' + 1) n = cstr m (a + 1) n := by
      apply ih
      intro i hi
      rw [Nat.add_assoc, Nat.add_assoc, Nat.add_comm 1 i]
      exact h (i + 1) (Nat.succ_lt_succ hi)
    rw [cstr, cstr, hhd, htl]

theorem zero_not_mem_cstr (m : ByteMap) (a n : Nat) : 0 ∉ cstr m a n := by
  induction n generalizing a with
  | zero => exact List.not_mem_nil
  | succ n ih =>
    rw [cstr]
    split
    · exact List.not_mem_nil
    · next h =>
        rw [List.mem_cons]
        rintro (h0 | h0)
        · exact h h0.symm
        · exact ih (a + 1) h0

/-- The string is empty exactly when it starts with the NUL. -/
theorem cstr_eq_nil : cstr m a (n + 1) = [] ↔ m a = 0 := by
  rw [cstr]
  split
  · next h => exact ⟨fun _ => h, fun _ => rfl⟩
  · next h => exact ⟨fun hc => (List.cons_ne_nil _ _ hc).elim, fun h0 => absurd h0 h⟩

/-- `strcmp` against a name without NUL compares as `equal_to_buffer`
does. -/
theorem strEq_eq : ∀ {a}, 0 ∉ s → strEq m a s = equalToBuffer m a s := by
  induction s with
  | nil => exact fun _ => rfl
  | cons c s ih =>
    intro a h0
    rw [List.mem_cons, not_or] at h0
    rw [strEq, if_neg (Ne.symm h0.1), equalToBuffer, ih h0.2]

/-- Both are equality of strings, for a name that fits. -/
theorem equalToBuffer_iff :
    ∀ {a n}, 0 ∉ s → s.length < n → (equalToBuffer m a s = true ↔ cstr m a n = s) := by
  induction s with
  | nil =>
    rintro a (_ | n) - hn
    · exact absurd hn (Nat.lt_irrefl 0)
    · rw [cstr_eq_nil, equalToBuffer, beq_iff_eq]
  | cons c s ih =>
    rintro a (_ | n) h0 hn
    · exact absurd hn (Nat.not_lt_zero _)
    · rw [List.mem_cons, not_or] at h0
      have htl := ih (a := a + 1) h0.2 (Nat.lt_of_succ_lt_succ hn)
      rw [equalToBuffer, Bool.and_eq_true, beq_iff_eq, htl, cstr]
      constructor
      · rintro ⟨rfl, hrest⟩
        rw [if_neg (Ne.symm h0.1), hrest]
      · intro h
        split at h
        · cases h
        · injection h with h1 h2
          exact ⟨h1, h2⟩

theorem strEq_iff (h0 : 0 ∉ s)
    (hn : s.length < n) : strEq m a s = true ↔ cstr m a n = s := by
  rw [strEq_eq h0, equalToBuffer_iff h0 hn]

/-- What `copy_to_buffer` leaves is the string it was given. -/
theorem cstr_copyToBuffer
    (h0 : 0 ∉ s) (hn : s.length < n) : cstr (copyToBuffer m a s) a n = s := by
  rw [← equalToBuffer_iff h0 hn]
  -- compare from byte `k` of the string on, whatever came before
  have key : ∀ (t : Path) (k : Nat), s.drop k = t → k ≤ s.length →
      equalToBuffer (copyToBuffer m a s) (a + k) t = true := by
    intro t
    induction t with
    | nil =>
      intro k hk hle
      have : s.length = k := Nat.le_antisymm (List.drop_eq_nil_iff.mp hk) hle
      rw [equalToBuffer, copyToBuffer, if_neg (by omega), if_pos (by omega)]
      rfl
    | cons c t ih =>
      intro k hk hle
      have hlt : k < s.length := by
        rcases Nat.lt_or_ge k s.length with h | h
        · exact h
        · rw [List.drop_eq_nil_of_le h] at hk
          cases hk
      have hget : s.getD k 0 = c := by
        rw [List.getD_eq_getElem?_getD, ← List.head?_drop, hk]
        rfl
      have htl : s.drop (k + 1) = t := by
        rw [← List.tail_drop, hk]
        rfl
      rw [equalToBuffer, copyToBuffer, if_pos (by omega),
        Nat.add_sub_cancel_left, hget, beq_self_eq_true, Bool.true_and]
      exact ih (k + 1) htl hlt
  exact key s 0 rfl (Nat.zero_le _)

-- ==== slots

/-- The name in slot `i`. -/
def Node.slotName (nd : ByteMap) (i : Nat) : Path := cstr nd (nameAt i) 32

/-- `children_count` as a number of slots. -/
def Node.count (nd : ByteMap) : Nat := (childrenCount nd).toNat

/-- Slot `i` of `nd` and slot `j` of `nd'` hold the same bytes. -/
def SameSlot (nd : ByteMap) (i : Nat) (nd' : ByteMap) (j : Nat) : Prop :=
  ∀ b < 36, nd' (8 + 36 * j + b) = nd (8 + 36 * i + b)

/-- Every byte of slot `i` is zero. -/
def ZeroSlot (nd : ByteMap) (i : Nat) : Prop :=
  ∀ b < 36, nd (8 + 36 * i + b) = 0

section Slots

variable {nd' : ByteMap} {j : Nat}

theorem SameSlot.name (h : SameSlot nd i nd' j) :
    Node.slotName nd' j = Node.slotName nd i :=
  cstr_congr fun b hb => h b (Nat.lt_trans hb (by decide))

theorem SameSlot.index (h : SameSlot nd i nd' j) :
    Node.childIndex nd' j = Node.childIndex nd i := by
  have hb : ∀ k ≤ 4,
      load nd' (8 + 36 * j + (32 + (4 - k))) k
        = load nd (8 + 36 * i + (32 + (4 - k))) k := by
    intro k
    induction k with
    | zero => exact fun _ => rfl
    | succ k ih =>
      intro hk
      have htl := ih (by omega)
      have hhd := h (32 + (4 - (k + 1))) (by omega)
      have h1 : 32 + (4 - (k + 1)) + 1 = 32 + (4 - k) := by omega
      rw [load, load, hhd, Nat.add_assoc (8 + 36 * j), h1, htl,
        Nat.add_assoc (8 + 36 * i), h1]
  exact hb 4 (Nat.le_refl 4)

theorem SameSlot.zero (h : SameSlot nd i nd' j) (hz : ZeroSlot nd i) : ZeroSlot nd' j :=
  fun b hb => (h b hb).trans (hz b hb)

theorem ZeroSlot.name (h : ZeroSlot nd i) : Node.slotName nd i = [] :=
  cstr_eq_nil.mpr (h 0 (by decide))

theorem ZeroSlot.index (h : ZeroSlot nd i) : Node.childIndex nd i = 0 := by
  apply load_eq_zero.mpr
  intro x h1 h2
  have hx : x = 8 + 36 * i + (x - (8 + 36 * i)) := by omega
  rw [hx]
  exact h _ (by omega)

theorem childIndex_lt (nd : ByteMap) (i : Nat) : Node.childIndex nd i < 2 ^ 32 :=
  load_lt nd _ 4

theorem value_lt (nd : ByteMap) : Node.value nd < 2 ^ 32 := load_lt nd 0 4

end Slots

-- ==== the code's updates

section Updates

theorem childrenCount_set (h : 0 ≤ c ∧ c < 2 ^ 31) :
    Node.childrenCount (Node.setChildrenCount nd c) = c := by
  have hl : load (Node.setChildrenCount nd c) 4 4 = c.toNat := by
    unfold Node.setChildrenCount
    rw [load_store_same, Int.emod_eq_of_lt h.1 (by omega)]
    exact Nat.mod_eq_of_lt (by omega)
  unfold Node.childrenCount
  rw [hl, if_pos (by omega)]
  exact Int.toNat_of_nonneg h.1

/-- `children_count` depends on its own four bytes. -/
theorem childrenCount_congr (h : ∀ x, 4 ≤ x → x < 8 → nd' x = nd x) :
    Node.childrenCount nd' = Node.childrenCount nd := by
  unfold Node.childrenCount
  rw [load_congr h]

theorem sameSlot_setChildrenCount (nd : ByteMap) (c : Int) (i : Nat) :
    SameSlot nd i (Node.setChildrenCount nd c) i :=
  fun _ _ => store_of_not_mem (by omega)

theorem value_setChildrenCount (c : Int) :
    Node.value (Node.setChildrenCount nd c) = Node.value nd :=
  load_store_of_disjoint (.inl (by decide))

/-- The parent node `fs_touch` writes back. -/
def addChild (nd : ByteMap) (slot : Nat) (name : Path) (idx : Nat) : ByteMap :=
  Node.setChildrenCount
    (Node.setChildIndex (copyToBuffer nd (Node.nameAt slot) name) slot idx)
    (Node.childrenCount nd + 1)

variable {slot : Nat} {name : Path} {idx : Nat}

/-- Bytes of `addChild` outside the slot and the count. -/
theorem addChild_apply (hl : name.length < 32)
    (hc : ¬ (4 ≤ x ∧ x < 8)) (hs : ¬ (8 + 36 * slot ≤ x ∧ x < 8 + 36 * slot + 36)) :
    addChild nd slot name idx x = nd x := by
  unfold addChild Node.setChildrenCount Node.setChildIndex
  rw [store_of_not_mem hc, store_of_not_mem (by omega)]
  unfold copyToBuffer Node.nameAt
  rw [if_neg (by omega), if_neg (by omega)]

theorem addChild_other (hl : name.length < 32) (hi : i ≠ slot) :
    SameSlot nd i (addChild nd slot name idx) i :=
  fun _ _ => addChild_apply hl (by omega) (by omega)

theorem addChild_name (h0 : 0 ∉ name) (hl : name.length < 32) :
    Node.slotName (addChild nd slot name idx) slot = name := by
  have h : Node.slotName (addChild nd slot name idx) slot
      = cstr (copyToBuffer nd (Node.nameAt slot) name) (Node.nameAt slot) 32 := by
    apply cstr_congr
    intro b hb
    unfold addChild Node.setChildrenCount Node.setChildIndex Node.nameAt
    rw [store_of_not_mem (by omega), store_of_not_mem (by omega)]
  rw [h, cstr_copyToBuffer h0 hl]

theorem addChild_index (hidx : idx < 2 ^ 32) :
    Node.childIndex (addChild nd slot name idx) slot = idx := by
  unfold Node.childIndex addChild Node.setChildrenCount Node.setChildIndex
  rw [load_store_of_disjoint (by omega), load_store_of_lt (by omega)]

theorem addChild_count (h : 0 ≤ Node.childrenCount nd ∧ Node.childrenCount nd < 32) :
    Node.childrenCount (addChild nd slot name idx) = Node.childrenCount nd + 1 :=
  childrenCount_set (by omega)

theorem addChild_value (hl : name.length < 32) :
    Node.value (addChild nd slot name idx) = Node.value nd :=
  load_congr fun _ _ _ => addChild_apply hl (by omega) (by omega)

/-- The parent node `fs_remove` writes back. -/
def dropChild (E : FsEnv) (nd : ByteMap) (i : Nat) : ByteMap :=
  moveChild E (Node.setChildrenCount nd (Node.childrenCount nd - 1)) i
    (Node.childrenCount nd - 2)

/-- Bytes of `dropChild` outside the slot. -/
theorem dropChild_apply (hs : ¬ (8 + 36 * i ≤ x ∧ x < 8 + 36 * i + 36)) :
    dropChild E nd i x
      = Node.setChildrenCount nd (Node.childrenCount nd - 1) x := by
  unfold dropChild moveChild
  split
  · exact copy_of_not_mem hs
  · exact copy_of_not_mem hs

theorem dropChild_other (hj : j ≠ i) : SameSlot nd j (dropChild E nd i) j := by
  intro b hb
  rw [dropChild_apply (by omega)]
  exact sameSlot_setChildrenCount nd _ j b hb

theorem dropChild_count (h : 1 ≤ Node.childrenCount nd ∧ Node.childrenCount nd ≤ 32) :
    Node.childrenCount (dropChild E nd i) = Node.childrenCount nd - 1 := by
  rw [childrenCount_congr fun x _ _ => dropChild_apply (by omega)]
  exact childrenCount_set (by omega)

theorem dropChild_value : Node.value (dropChild E nd i) = Node.value nd := by
  have h : Node.value (dropChild E nd i)
      = Node.value (Node.setChildrenCount nd (Node.childrenCount nd - 1)) :=
    load_congr fun x _ _ => dropChild_apply (by omega)
  rw [h, value_setChildrenCount]

/-- With two children or more, slot `i` gets the last slot but one. -/
theorem dropChild_moved (h : 2 ≤ Node.count nd) :
    SameSlot nd (Node.count nd - 2) (dropChild E nd i) i := by
  intro b hb
  unfold Node.count at h ⊢
  have hj : (Node.childrenCount nd - 2).toNat
      = (Node.childrenCount nd).toNat - 2 := by omega
  unfold dropChild moveChild
  rw [if_pos (by omega), copy_of_mem (by omega), hj, Nat.add_sub_cancel_left]
  exact sameSlot_setChildrenCount nd _ _ b hb

/-- With one child, slot `i` starts with the stack's bytes... -/
theorem dropChild_stack (h : Node.childrenCount nd = 1) (hb : b < 28) :
    dropChild E nd i (8 + 36 * i + b) = E.stack b := by
  unfold dropChild moveChild
  rw [if_neg (by omega), copy_of_mem (by omega), Nat.add_sub_cancel_left,
    Nat.zero_add, if_pos hb]

/-- ... and its index is the new `children_count`. -/
theorem dropChild_stack_index (h : Node.childrenCount nd = 1) :
    Node.childIndex (dropChild E nd i) i = 0 := by
  apply load_eq_zero.mpr
  intro x h1 h2
  unfold dropChild moveChild
  rw [if_neg (by omega), copy_of_mem (by omega), if_neg (by omega)]
  have h0 : load (Node.setChildrenCount nd (Node.childrenCount nd - 1)) 4 4 = 0 := by
    unfold Node.setChildrenCount
    rw [load_store_same, h]
    rfl
  exact load_eq_zero.mp h0 _ (by omega) (by omega)

theorem dropChild_stack_name (h : Node.childrenCount nd = 1) :
    Node.slotName (dropChild E nd i) i = [] ↔ E.stack 0 = 0 := by
  have h0 : dropChild E nd i (Node.nameAt i) = E.stack 0 :=
    dropChild_stack (b := 0) h (by decide)
  unfold Node.slotName
  rw [cstr_eq_nil, h0]

end Updates

-- ==== nodes on disk

/-- Node `u` of a disk. -/
def nodeAt (disk : ByteMap) (u : Nat) : ByteMap :=
  slice disk (70428 + u * 1160) 1160

theorem nodeAt_congr
    (h : ∀ x, 70428 + u * 1160 ≤ x → x < 70428 + u * 1160 + 1160 →
      disk' x = disk x) : nodeAt disk' u = nodeAt disk u :=
  slice_congr h

/-- A node written elsewhere is not seen. -/
theorem nodeAt_copy_other (h : v ≠ u) :
    nodeAt (copy disk (70428 + u * 1160) src 0 1160) v = nodeAt disk v := by
  apply nodeAt_congr
  intro x h1 h2
  exact copy_of_not_mem (by omega)

/-- A node reads back as it was written. -/
theorem nodeAt_copy_same :
    nodeAt (copy disk (70428 + u * 1160) src 0 1160) u = slice src 0 1160 := by
  funext x
  unfold nodeAt slice
  split
  · next hx =>
      rw [copy_of_mem (by omega), Nat.add_sub_cancel_left]
  · rfl

theorem sameSlot_slice (h : i < 32) : SameSlot nd i (slice nd 0 1160) i := by
  intro b hb
  rw [slice_of_lt (by omega), Nat.zero_add]

theorem childrenCount_slice :
    Node.childrenCount (slice nd 0 1160) = Node.childrenCount nd := by
  apply childrenCount_congr
  intro x h1 h2
  rw [slice_of_lt (by omega), Nat.zero_add]

theorem value_slice : Node.value (slice nd 0 1160) = Node.value nd := by
  unfold Node.value
  rw [load_slice (by decide)]

theorem u64_nodeAddr (h : u < 2 ^ 32) : u64 (70428 + u * 1160) = 70428 + u * 1160 :=
  u64_of_lt (by omega)

/-- Reading a node, or failing to. -/
theorem fsdr_node_outcome (hu : u < 2 ^ 32) (w : FsWorld) :
    fsdr E (fsdesc.treeOffset + u * 1160) 1160 w
        = (.ok (nodeAt w.disk u), { w with io := w.io + 1 })
      ∨ ¬ E.Reliable ∧ fsdr E (fsdesc.treeOffset + u * 1160) 1160 w
        = (.error (.err (-eio)), { w with io := w.io + 1 }) := by
  have h := fsdr_outcome (E := E) (70428 + u * 1160) 1160 w
  rw [u64_nodeAddr hu] at h
  exact h

theorem fsdr_node (hE : E.Reliable) (hu : u < 2 ^ 32) (w : FsWorld) :
    fsdr E (fsdesc.treeOffset + u * 1160) 1160 w
      = (.ok (nodeAt w.disk u), { w with io := w.io + 1 }) :=
  (fsdr_node_outcome hu w).resolve_right fun h => h.1 hE

/-- Writing a node. -/
theorem fsdw_node (hE : E.Reliable) (src : ByteMap) (hu : u < 2 ^ 32) (w : FsWorld) :
    fsdw E src (fsdesc.treeOffset + u * 1160) 1160 w
      = (.ok (), { w with
          disk := copy w.disk (70428 + u * 1160) src 0 1160, io := w.io + 1 }) := by
  have h : fsdesc.treeOffset + u * 1160 = 70428 + u * 1160 := rfl
  rw [h, fsdw_reliable hE, u64_nodeAddr hu]

end RojocOS.Fs
