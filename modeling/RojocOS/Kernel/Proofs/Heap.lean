/-
The representation of the kernel heap.

# The invariant

`HeapInv m fl pages free used` ties the bytes to two ghost lists of
blocks: `free`, in the order of the linked list, and `used`, in no
particular order.

- `Seg m free fl 0`: following `next` from `free_list` visits `free` and
  ends at `NULL`.
- Every block of `used` has its size in its header and `next = NULL`.
- The blocks of both lists tile the pages of the heap.

The tiling is what keeps the lists apart: a store to one header, or to
the data of one block, misses every other header.

# The operations

`HeapInv.takeBlock`, `HeapInv.pushPage` and `HeapInv.coalesce` say what
the three ways of changing the heap do to the ghost lists, together with
the bytes they leave alone.
-/
import RojocOS.Kernel.Malloc
import RojocOS.Kernel.Proofs.Map
import RojocOS.Lib.Tiling

namespace RojocOS.Kernel

open ByteMap Tiling

variable {h k n p q size v x : Nat} {m m' : ByteMap} {l l' : List Blk} {s : KState}
  {S : Nat → Prop}
variable {a fl : Nat} {b c : Blk} {free pre used : List Blk} {pages : List Nat}

-- ==== blocks

/-- A block: the address of its header, and the size of its data. -/
structure Blk where
  h : Nat
  size : Nat
  deriving DecidableEq, Repr

/-- The length of a block with its header. -/
def Blk.len (b : Blk) : Nat := 16 + b.size

theorem Blk.len_pos (b : Blk) : 0 < b.len := by
  unfold Blk.len
  omega

/-- The block's own bytes. -/
abbrev Blk.Has (b : Blk) (x : Nat) : Prop := Inside Blk.h Blk.len b x

abbrev Blk.Apart (b c : Blk) : Prop := Tiling.Apart Blk.h Blk.len b c

theorem Blk.has_iff {b : Blk} : b.Has x ↔ b.h ≤ x ∧ x < b.h + (16 + b.size) := Iff.rfl

/-- The bytes of a list of pages. -/
def InPages (pages : List Nat) (x : Nat) : Prop :=
  ∃ p ∈ pages, p ≤ x ∧ x < p + 4096

-- ==== segments

/-- Following `next` from `p` visits the blocks `l` and arrives at
`q`. -/
def Seg (m : ByteMap) : List Blk → Nat → Nat → Prop
  | [], p, q => p = q
  | b :: l, p, q =>
      p = b.h ∧ blockSize m b.h = b.size ∧ Seg m l (blockNext m b.h) q

theorem Seg.append {l1 l2 : List Blk} :
    Seg m (l1 ++ l2) p q ↔ ∃ r, Seg m l1 p r ∧ Seg m l2 r q := by
  induction l1 generalizing p with
  | nil =>
    constructor
    · exact fun h => ⟨p, rfl, h⟩
    · rintro ⟨r, rfl, h⟩
      exact h
  | cons b l ih =>
    constructor
    · rintro ⟨hp, hs, h⟩
      obtain ⟨r, h1, h2⟩ := ih.mp h
      exact ⟨r, ⟨hp, hs, h1⟩, h2⟩
    · rintro ⟨r, ⟨hp, hs, h1⟩, h2⟩
      exact ⟨hp, hs, ih.mpr ⟨r, h1, h2⟩⟩

theorem blockSize_congr {b : Nat} (h : ∀ x, b ≤ x → x < b + 16 → m' x = m x) :
    blockSize m' b = blockSize m b :=
  load_congr fun x h1 h2 => h x h1 (by omega)

theorem blockNext_congr {b : Nat} (h : ∀ x, b ≤ x → x < b + 16 → m' x = m x) :
    blockNext m' b = blockNext m b :=
  load_congr fun x h1 h2 => h x (by omega) (by omega)

/-- A segment depends on its headers only. -/
theorem Seg.frame (hs : Seg m l p q)
    (h : ∀ b ∈ l, ∀ x, b.h ≤ x → x < b.h + 16 → m' x = m x) : Seg m' l p q := by
  induction l generalizing p with
  | nil => exact hs
  | cons b l ih =>
    obtain ⟨hp, hsz, hl⟩ := hs
    have hb := h b (.head _)
    refine ⟨hp, (blockSize_congr hb).trans hsz, ?_⟩
    rw [blockNext_congr hb]
    exact ih hl fun c hc => h c (.tail _ hc)

-- ==== links

/-- The link that follows the blocks `pre`. -/
def lastLink : Link → List Blk → Link
  | prev, [] => prev
  | _, b :: l => lastLink (.next b.h) l

theorem lastLink_concat (prev : Link) (l : List Blk) (c : Blk) :
    lastLink prev (l ++ [c]) = .next c.h := by
  induction l generalizing prev with
  | nil => rfl
  | cons b l ih => exact ih (.next b.h)

/-- Setting the link behind `pre` redirects where the segment arrives,
and changes `pre`'s headers only. -/
theorem setLink_seg {pre : List Blk} {r : Nat}
    (hs : Seg s.mem pre s.freeList r) (hap : pre.Pairwise Blk.Apart) (hv : v < 2 ^ 64) :
    ∃ m' fl', setLink (lastLink .head pre) v s
        = { s with mem := m', freeList := fl' }
      ∧ Seg m' pre fl' v
      ∧ ∀ x, (∀ c ∈ pre, x < c.h + 8 ∨ c.h + 16 ≤ x) → m' x = s.mem x := by
  rcases List.eq_nil_or_concat pre with rfl | ⟨l, c, hpre⟩
  · exact ⟨s.mem, v, rfl, rfl, fun x _ => rfl⟩
  · rw [List.concat_eq_append] at hpre
    subst hpre
    obtain ⟨r', hl, hc⟩ := Seg.append.mp hs
    rw [lastLink_concat]
    refine ⟨store s.mem (c.h + 8) 8 v, s.freeList, rfl,
      Seg.append.mpr ⟨r', hl.frame fun b hb x h1 h2 => ?_, hc.1, ?_, ?_⟩, fun x hx => ?_⟩
    · -- the headers before the last are apart from it
      have := (List.pairwise_append.mp hap).2.2 b hb c (List.mem_singleton_self c)
      refine store_of_not_mem ?_
      unfold Blk.Apart Tiling.Apart Blk.len at this
      omega
    · exact (load_store_of_disjoint (by omega)).trans hc.2.1
    · show blockNext _ c.h = v
      unfold blockNext
      rw [load_store_of_lt (by omega)]
    · have := hx c (List.mem_append_right _ (List.mem_singleton_self c))
      exact store_of_not_mem (by omega)

-- ==== invariant

/-- The heap is its free blocks and its used blocks. -/
structure HeapInv (m : ByteMap) (fl : Nat) (pages : List Nat)
    (free used : List Blk) : Prop where
  seg : Seg m free fl 0
  header : ∀ b ∈ used, blockSize m b.h = b.size ∧ blockNext m b.h = 0
  align : ∀ b ∈ free ++ used, b.h % 16 = 0 ∧ b.size % 16 = 0
  page : ∀ p ∈ pages, p % 4096 = 0 ∧ 4096 ≤ p ∧ p + 4096 ≤ 0x200000
  tiles : Tiles Blk.h Blk.len (InPages pages) (free ++ used)

theorem InPages.low (hp : ∀ p ∈ pages, p % 4096 = 0 ∧ 4096 ≤ p
    ∧ p + 4096 ≤ 0x200000) (h : InPages pages x) : 4096 ≤ x ∧ x < 0x200000 := by
  obtain ⟨p, hmem, h1, h2⟩ := h
  have := hp p hmem
  omega

/-- A heap without pages. -/
theorem HeapInv.empty (m : ByteMap) : HeapInv m 0 [] [] [] := by
  refine ⟨rfl, fun b hb => ?_, fun b hb => ?_, fun p hp => ?_, Tiles.nil ?_⟩
  · cases hb
  · cases hb
  · cases hp
  · rintro a ⟨p, hp, -⟩
    cases hp

/-- Blocks lie between page 1 and the end of memory. -/
theorem HeapInv.bounds (h : HeapInv m fl pages free used) (hb : b ∈ free ++ used) :
    4096 ≤ b.h ∧ b.h + 16 + b.size ≤ 0x200000 := by
  have h1 := InPages.low h.page (h.tiles.mem hb
    (⟨Nat.le_refl _, Nat.lt_add_of_pos_right b.len_pos⟩))
  have h2 := InPages.low h.page (h.tiles.mem hb
    (show b.Has (b.h + 15 + b.size) from Blk.has_iff.mpr (by omega)))
  omega

theorem HeapInv.head_ne (h : HeapInv m fl pages free used) : ∀ b ∈ free, b.h ≠ 0 := by
  intro b hb
  have := h.bounds (List.mem_append_left _ hb)
  omega

/-- A linked list in memory is one list. -/
theorem Seg.unique : ∀ {p}, Seg m l p 0 → Seg m l' p 0 →
    (∀ b ∈ l, b.h ≠ 0) → (∀ b ∈ l', b.h ≠ 0) → l = l' := by
  induction l generalizing l' with
  | nil =>
    rintro p rfl h' - hne'
    cases l' with
    | nil => rfl
    | cons c l' => exact absurd h'.1.symm (hne' c (.head _))
  | cons b l ih =>
    rintro p ⟨rfl, hsz, hl⟩ h' hne hne'
    cases l' with
    | nil => exact absurd h' (hne b (.head _))
    | cons c l' =>
      obtain ⟨hb, hsz', hl'⟩ := h'
      have hbc : b = c := by
        obtain ⟨h, size⟩ := b
        obtain ⟨h', size'⟩ := c
        dsimp only at hb hsz hsz'
        subst hb
        rw [← hsz, ← hsz']
      subst hbc
      rw [ih hl hl' (fun c hc => hne c (.tail _ hc)) fun c hc => hne' c (.tail _ hc)]

/-- The blocks of the free list, in its order. -/
def Listed (s : KState) (free : List Blk) : Prop :=
  Seg s.mem free s.freeList 0 ∧ ∀ b ∈ free, b.h ≠ 0

theorem Listed.unique (h : Listed s l) (h' : Listed s l') : l = l' :=
  Seg.unique h.1 h'.1 h.2 h'.2

theorem HeapInv.listed (h : HeapInv s.mem s.freeList pages free used) : Listed s free :=
  ⟨h.seg, h.head_ne⟩

/-- The headers of used blocks, after a write that misses them. -/
theorem headers_frame (h : ∀ b ∈ used, blockSize m b.h = b.size ∧ blockNext m b.h = 0)
    (hm : ∀ b ∈ used, ∀ x, b.h ≤ x → x < b.h + 16 → m' x = m x) :
    ∀ b ∈ used, blockSize m' b.h = b.size ∧ blockNext m' b.h = 0 := by
  intro b hb
  rw [blockSize_congr (hm b hb), blockNext_congr (hm b hb)]
  exact h b hb

/-- The heap depends on the headers of its blocks. -/
theorem HeapInv.frame (h : HeapInv m fl pages free used)
    (hm : ∀ b ∈ free ++ used, ∀ x, b.h ≤ x → x < b.h + 16 → m' x = m x) :
    HeapInv m' fl pages free used := by
  exact ⟨h.seg.frame fun b hb => hm b (List.mem_append_left _ hb),
    headers_frame h.header fun b hb => hm b (List.mem_append_right _ hb), h.align, h.page,
    h.tiles⟩

/-- A write that misses the pages misses the heap. -/
theorem HeapInv.frame_pages (h : HeapInv m fl pages free used)
    (hm : ∀ x, InPages pages x → m' x = m x) : HeapInv m' fl pages free used := by
  refine h.frame fun b hb x h1 h2 => hm x (h.tiles.mem hb ?_)
  exact Blk.has_iff.mpr (by omega)

/-- The block brought to the front. -/
theorem take_perm (pre post used : List Blk) (b : Blk) :
    ((pre ++ b :: post) ++ used).Perm (b :: (pre ++ post ++ used)) := by
  rw [List.append_assoc, List.append_assoc]
  exact List.perm_middle

/-- The other headers are apart from a block of the tiling. -/
theorem Blk.Apart.header (h : b.Apart c) (h1 : c.h ≤ x)
    (h2 : x < c.h + 16) : ¬ b.Has x := by
  intro hx
  rw [Blk.has_iff] at hx
  unfold Blk.Apart Tiling.Apart Blk.len at h
  omega

-- ==== taking

section Take

variable {post : List Blk}

/-- What `unlinkBlock` leaves: the ghost lists of the heap once `b'` is
marked as used. -/
structure Unlinked (m : ByteMap) (fl : Nat) (pages : List Nat)
    (free used : List Blk) (b' : Blk) : Prop where
  seg : Seg m free fl 0
  header : ∀ c ∈ used, blockSize m c.h = c.size ∧ blockNext m c.h = 0
  size : blockSize m b'.h = b'.size
  align : ∀ c ∈ free ++ b' :: used, c.h % 16 = 0 ∧ c.size % 16 = 0
  tiles : Tiles Blk.h Blk.len (InPages pages) (free ++ b' :: used)

/-- The link behind `pre` set to the blocks `back`, which take the place of
`b` in the list; `b'` is the part of `b` that is used. -/
theorem HeapInv.relink (h : HeapInv s.mem s.freeList s.heapPages (pre ++ b :: post) used)
    (back : List Blk) (b' : Blk) (hm : ∀ x, ¬ b.Has x → m x = s.mem x) (hv : v < 2 ^ 64)
    (hinside : ∀ m', (∀ x, b.Has x → m' x = m x) →
      Seg m' back v (blockNext s.mem b.h) ∧ blockSize m' b'.h = b'.size)
    (halign : ∀ c ∈ back ++ [b'], c.h % 16 = 0 ∧ c.size % 16 = 0)
    (htiles : Tiles Blk.h Blk.len (InPages s.heapPages)
      (pre ++ (back ++ post) ++ b' :: used)) :
    ∃ m' fl', setLink (lastLink .head pre) v { s with mem := m }
        = { s with mem := m', freeList := fl' }
      ∧ Unlinked m' fl' s.heapPages (pre ++ (back ++ post)) used b'
      ∧ ∀ x, (∀ c ∈ pre ++ b :: post, ¬ c.Has x) → m' x = s.mem x := by
  have hperm := take_perm pre post used b
  have hap := (h.tiles.perm hperm).apart
  rw [List.pairwise_cons] at hap
  obtain ⟨hb, hrest⟩ := hap
  rw [List.append_assoc, List.pairwise_append] at hrest
  obtain ⟨hpre, -, hcross⟩ := hrest
  -- what happens inside `b` misses the other headers
  have hin : ∀ c ∈ pre ++ (post ++ used), ∀ x, c.h ≤ x → x < c.h + 16 →
      m x = s.mem x := by
    intro c hc x h1 h2
    rw [← List.append_assoc] at hc
    exact hm x (Blk.Apart.header (hb c hc) h1 h2)
  obtain ⟨r, hseg, -, -, hpost⟩ := Seg.append.mp h.seg
  obtain ⟨m', fl', hset, hseg', hout⟩ := setLink_seg (s := { s with mem := m })
    (hseg.frame fun c hc => hin c (List.mem_append_left _ hc)) hpre hv
  dsimp only at hset hout
  -- linking touches the headers of `pre` only
  have hkeepb : ∀ x, b.Has x → m' x = m x := by
    intro x hx
    refine hout x fun d hd => ?_
    have := hb d (List.mem_append_left _ (List.mem_append_left _ hd))
    rw [Blk.has_iff] at hx
    unfold Tiling.Apart Blk.len at this
    omega
  have hkeep : ∀ c ∈ post ++ used, ∀ x, c.h ≤ x → x < c.h + 16 → m' x = s.mem x := by
    intro c hc x h1 h2
    rw [hout x fun d hd => ?_, hin c (List.mem_append_right _ hc) x h1 h2]
    have := Blk.Apart.header (hcross d hd c hc) h1 h2
    rw [Blk.has_iff] at this
    omega
  obtain ⟨hback, hsize⟩ := hinside m' hkeepb
  refine ⟨m', fl', hset, ⟨Seg.append.mpr ⟨v, hseg', Seg.append.mpr ⟨_, hback, ?_⟩⟩,
    headers_frame h.header fun c hc => hkeep c (List.mem_append_right _ hc), hsize,
    fun c hc => ?_, htiles⟩, fun x hx => ?_⟩
  · exact hpost.frame fun c hc => hkeep c (List.mem_append_left _ hc)
  · by_cases hnew : c ∈ back ++ [b']
    · exact halign c hnew
    · refine h.align c ?_
      simp only [List.mem_append, List.mem_cons, List.not_mem_nil, or_false,
        not_or] at hc hnew ⊢
      rcases hc with (hc | hc | hc) | hc | hc
      · exact .inl (.inl hc)
      · exact absurd hc hnew.1
      · exact .inl (.inr (.inr hc))
      · exact absurd hc hnew.2
      · exact .inr hc
  · rw [hout x fun c hc => ?_, hm x (hx b (List.mem_append_right _ (.head _)))]
    have := hx c (List.mem_append_left _ hc)
    rw [Blk.has_iff] at this
    omega

/-- Cutting a block in two keeps the tiling. -/
theorem Tiles.split (ht : Tiles Blk.h Blk.len S (⟨h, k + 16 + n⟩ :: l)) :
    Tiles Blk.h Blk.len S (⟨h + 16 + k, n⟩ :: ⟨h, k⟩ :: l) := by
  refine Tiles.replace [⟨h, k + 16 + n⟩] [⟨h + 16 + k, n⟩, ⟨h, k⟩] ht Blk.len_pos ?_ fun a => ?_
  · refine List.pairwise_pair.mpr (.inr ?_)
    show h + (16 + k) ≤ h + 16 + k
    omega
  · simp only [List.mem_cons, List.not_mem_nil, or_false, exists_eq_or_imp,
      exists_eq_left, Inside, Blk.len]
    omega

/-- Joining two neighbours does too. -/
theorem Tiles.join (ht : Tiles Blk.h Blk.len S (⟨h, k⟩ :: ⟨h + 16 + k, n⟩ :: l)) :
    Tiles Blk.h Blk.len S (⟨h, k + (16 + n)⟩ :: l) := by
  refine Tiles.replace [⟨h, k⟩, ⟨h + 16 + k, n⟩] [⟨h, k + (16 + n)⟩] ht
    Blk.len_pos (List.pairwise_singleton _ _) fun a => ?_
  simp only [List.mem_cons, List.not_mem_nil, or_false, exists_eq_or_imp,
    exists_eq_left, Inside, Blk.len]
  omega

/-- The three stores of a split: two headers where there was one. -/
def splitHeaders (m : ByteMap) (h a size : Nat) : ByteMap :=
  let m := store m (h + a) 8 (size - a)
  let m := store m (h + a + 8) 8 (blockNext m h)
  store m h 8 (a - 16)

theorem splitHeaders_spec {a : Nat} (ha : 32 ≤ a)
    (hle : a + 32 ≤ size) (hsz : size < 2 ^ 32) :
    blockSize (splitHeaders m h a size) h = a - 16
      ∧ blockSize (splitHeaders m h a size) (h + a) = size - a
      ∧ blockNext (splitHeaders m h a size) (h + a) = blockNext m h
      ∧ ∀ x, (x < h ∨ h + 16 + size ≤ x) → splitHeaders m h a size x = m x := by
  have hn : blockNext (store m (h + a) 8 (size - a)) h = blockNext m h :=
    load_store_of_disjoint (by omega)
  unfold splitHeaders
  dsimp only
  rw [hn]
  refine ⟨?_, ?_, ?_, fun x hx => ?_⟩
  · unfold blockSize
    rw [load_store_of_lt (by omega)]
  · unfold blockSize
    rw [load_store_of_disjoint (by omega), load_store_of_disjoint (by omega),
      load_store_of_lt (by omega)]
  · have hlt : blockNext m h < 2 ^ 64 := load_lt _ _ _
    unfold blockNext at hlt ⊢
    rw [load_store_of_disjoint (by omega), load_store_of_lt (by omega)]
  · rw [store_of_not_mem (by omega), store_of_not_mem (by omega),
      store_of_not_mem (by omega)]

/-- The block is split: its front is used, its back takes its place in
the list. -/
theorem HeapInv.unlink_split
    (h : HeapInv s.mem s.freeList s.heapPages (pre ++ b :: post) used)
    (ha : 32 ≤ a) (ha16 : a % 16 = 0) (hle : a + 32 ≤ b.size) :
    ∃ m' fl', setLink (lastLink .head pre) (b.h + a)
          { s with mem := splitHeaders s.mem b.h a b.size }
        = { s with mem := m', freeList := fl' }
      ∧ Unlinked m' fl' s.heapPages
          (pre ++ ⟨b.h + a, b.size - a⟩ :: post) used ⟨b.h, a - 16⟩
      ∧ ∀ x, (∀ c ∈ pre ++ b :: post, ¬ c.Has x) → m' x = s.mem x := by
  have hperm := take_perm pre post used b
  have hbmem : b ∈ (pre ++ b :: post) ++ used :=
    hperm.mem_iff.mpr (.head _)
  have hbounds := h.bounds hbmem
  have halign := h.align b hbmem
  obtain ⟨h1, h2, h3, h4⟩ := splitHeaders_spec ha hle (by omega)
  refine h.relink [⟨b.h + a, b.size - a⟩] _ (fun x hx => h4 x ?_) (by omega)
    (fun m' hm' => ⟨⟨rfl, ?_, ?_⟩, ?_⟩) (fun c hc => ?_) ?_
  · rw [Blk.has_iff] at hx
    omega
  · refine (blockSize_congr fun x hx1 hx2 => hm' x (Blk.has_iff.mpr ?_)).trans h2
    dsimp only at hx1 hx2
    omega
  · refine (blockNext_congr fun x hx1 hx2 => hm' x (Blk.has_iff.mpr ?_)).trans h3
    dsimp only at hx1 hx2
    omega
  · refine (blockSize_congr fun x hx1 hx2 => hm' x (Blk.has_iff.mpr ?_)).trans h1
    dsimp only at hx1 hx2
    omega
  · rcases List.mem_cons.mp hc with rfl | hc
    · show (b.h + a) % 16 = 0 ∧ (b.size - a) % 16 = 0
      omega
    · rw [List.mem_singleton.mp hc]
      show b.h % 16 = 0 ∧ (a - 16) % 16 = 0
      omega
  · have e1 : b = ⟨b.h, (a - 16) + 16 + (b.size - a)⟩ := by
      rw [show a - 16 + 16 + (b.size - a) = b.size by omega]
    have e2 : b.h + a = b.h + 16 + (a - 16) := by omega
    have ht := h.tiles.perm hperm
    rw [e1] at ht
    rw [e2]
    refine (Tiles.split ht).perm ((List.Perm.cons _ ?_).trans
      (take_perm pre post (⟨b.h, a - 16⟩ :: used) _).symm)
    exact List.perm_middle.symm

/-- Taking the block out of the list, either way. -/
theorem HeapInv.unlinkBlock
    (h : HeapInv s.mem s.freeList s.heapPages (pre ++ b :: post) used)
    (ha : 32 ≤ a) (ha16 : a % 16 = 0) (hle : a ≤ b.size) :
    ∃ m' fl' free' k, unlinkBlock a (lastLink .head pre) b.h s
        = { s with mem := m', freeList := fl' }
      ∧ Unlinked m' fl' s.heapPages free' used ⟨b.h, k⟩ ∧ a - 16 ≤ k
      ∧ k ≤ b.size
      ∧ ∀ x, (∀ c ∈ pre ++ b :: post, ¬ c.Has x) → m' x = s.mem x := by
  obtain ⟨r, -, -, hsz, -⟩ := Seg.append.mp h.seg
  unfold Kernel.unlinkBlock
  rw [hsz]
  by_cases hsplit : a + 16 + 16 ≤ b.size
  · rw [if_pos hsplit]
    obtain ⟨m', fl', hset, hu, hout⟩ := h.unlink_split ha ha16 hsplit
    exact ⟨m', fl', _, a - 16, hset, hu, Nat.le_refl _, by omega, hout⟩
  · rw [if_neg hsplit]
    -- the block is used whole
    obtain ⟨m', fl', hset, hu, hout⟩ := h.relink [] b (fun _ _ => rfl) (load_lt _ _ _)
      (fun m' hm' => ⟨rfl, (blockSize_congr fun x h1 h2 => hm' x
        (Blk.has_iff.mpr (by omega))).trans hsz⟩)
      (fun c hc => h.align c (List.mem_append_left _ (List.mem_append_right _
        (List.mem_singleton.mp hc ▸ List.mem_cons_self))))
      (h.tiles.perm ((take_perm pre post used b).trans List.perm_middle.symm))
    exact ⟨m', fl', _, b.size, hset, hu, by omega, Nat.le_refl _, hout⟩

end Take

-- ==== search

/-- The first-fit search stops at the first block that is large enough,
sees every block or runs out of turns. -/
theorem findFit_spec : ∀ {p cur} fuel, Seg m l cur 0 → (∀ b ∈ l, b.h ≠ 0) →
    (findFit m a fuel p cur = none ∧ fuel ≤ l.length)
      ∨ (findFit m a fuel p cur = some none ∧ ∀ b ∈ l, b.size < a)
      ∨ ∃ pre b post, l = pre ++ b :: post ∧ a ≤ b.size
        ∧ findFit m a fuel p cur = some (some (lastLink p pre, b.h)) := by
  induction l with
  | nil =>
    rintro prev cur fuel rfl -
    cases fuel with
    | zero => exact .inl ⟨rfl, Nat.le_refl _⟩
    | succ fuel => exact .inr (.inl ⟨rfl, fun b hb => absurd hb List.not_mem_nil⟩)
  | cons b l ih =>
    rintro prev cur fuel ⟨rfl, hsz, hl⟩ hne
    cases fuel with
    | zero => exact .inl ⟨rfl, Nat.zero_le _⟩
    | succ fuel =>
      rw [findFit, if_neg (hne b (.head _)), hsz]
      by_cases hfit : a ≤ b.size
      · rw [if_pos hfit]
        exact .inr (.inr ⟨[], b, l, rfl, hfit, rfl⟩)
      · rw [if_neg hfit]
        rcases ih fuel hl fun c hc => hne c (.tail _ hc)
          with ⟨h, hle⟩ | ⟨h, hsmall⟩ | ⟨pre, c, post, rfl, hc, h⟩
        · exact .inl ⟨h, Nat.succ_le_succ hle⟩
        · exact .inr (.inl ⟨h, List.forall_mem_cons.mpr ⟨by omega, hsmall⟩⟩)
        · exact .inr (.inr ⟨b :: pre, c, post, rfl, hc, h⟩)

/-- `kernel_malloc` on the block it has found: the block is used, its data
is zero, and only bytes of free blocks change. -/
theorem HeapInv.takeBlock {free used : List Blk} {fuel cur : Nat}
    {prev : Link} (h : HeapInv s.mem s.freeList s.heapPages free used) (hs0 : size ≠ 0)
    (hf : findFit s.mem (alignSize (size + 16)) fuel .head s.freeList
      = some (some (prev, cur))) :
    ∃ m' fl' free' k, takeBlock (alignSize (size + 16)) prev cur s
        = { s with mem := m', freeList := fl' }
      ∧ HeapInv m' fl' s.heapPages free' (⟨cur, k⟩ :: used) ∧ size ≤ k
      ∧ (∀ x < k, m' (cur + 16 + x) = 0)
      ∧ (∀ u ∈ used, ∀ x, u.Has x → m' x = s.mem x)
      ∧ ∀ x, ¬ InPages s.heapPages x → m' x = s.mem x := by
  obtain ⟨a, ha⟩ : ∃ a, alignSize (size + 16) = a := ⟨_, rfl⟩
  have hal : 32 ≤ a ∧ a % 16 = 0 ∧ size + 16 ≤ a := by
    rw [← ha]
    unfold alignSize
    omega
  rw [ha] at hf ⊢
  rcases findFit_spec fuel h.seg h.head_ne
    with ⟨hr, -⟩ | ⟨hr, -⟩ | ⟨pre, b, post, rfl, hle, hr⟩ <;> rw [hr] at hf <;> cases hf
  obtain ⟨m1, fl', free', k, hun, hu, hak, hkb, hout⟩ :=
    h.unlinkBlock hal.1 hal.2.1 hle
  have hsize : blockSize (store m1 (b.h + 8) 8 0) b.h = k :=
    (load_store_of_disjoint (by omega)).trans hu.size
  unfold Kernel.takeBlock
  rw [hun]
  dsimp only
  rw [hsize]
  -- the mark and the zeroing stay inside the block
  have hin : ∀ x, (x < b.h + 8 ∨ b.h + 16 + k ≤ x) →
      fill (store m1 (b.h + 8) 8 0) (b.h + 16) k 0 x = m1 x := by
    intro x hx
    rw [fill_of_not_mem (by omega), store_of_not_mem (by omega)]
  have hap := ((hu.tiles.perm List.perm_middle).apart)
  rw [List.pairwise_cons] at hap
  have hkeep : ∀ c ∈ free' ++ used, ∀ x, c.h ≤ x → x < c.h + 16 →
      fill (store m1 (b.h + 8) 8 0) (b.h + 16) k 0 x = m1 x := by
    intro c hc x h1 h2
    have := Blk.Apart.header (hap.1 c hc) h1 h2
    rw [Blk.has_iff] at this
    dsimp only at this
    exact hin x (by omega)
  have hfree : ∀ x, (∀ c ∈ pre ++ b :: post, ¬ c.Has x) →
      fill (store m1 (b.h + 8) 8 0) (b.h + 16) k 0 x = s.mem x := by
    intro x hx
    have hxb := hx b (List.mem_append_right _ (.head _))
    rw [Blk.has_iff] at hxb
    rw [hin x (by omega), hout x hx]
  refine ⟨_, fl', free', k, rfl, ⟨?_, ?_, hu.align, h.page, hu.tiles⟩, by omega,
    fun x hx => fill_of_mem (by omega), fun u hu' x hx => ?_, fun x hx => ?_⟩
  · exact hu.seg.frame fun c hc => hkeep c (List.mem_append_left _ hc)
  · intro c hc
    rcases List.mem_cons.mp hc with rfl | hc
    · show blockSize _ b.h = k ∧ blockNext _ b.h = 0
      refine ⟨(load_fill_of_disjoint (by omega)).trans hsize,
        (load_fill_of_disjoint (by omega)).trans ?_⟩
      exact load_store_same _ _ _ _
    · exact headers_frame hu.header (fun d hd => hkeep d (List.mem_append_right _ hd)) c hc
  · refine hfree x fun c hc hcx => ?_
    exact ((List.pairwise_append.mp h.tiles.apart).2.2 c hc u hu').not_inside hcx hx
  · exact hfree x fun c hc hcx => hx (h.tiles.mem (List.mem_append_left _ hc) hcx)

-- ==== growing

/-- The head of the list is an address of memory, or `NULL`. -/
theorem HeapInv.head_lt (h : HeapInv m fl pages free used) : fl < 0x200000 := by
  have hseg := h.seg
  cases free with
  | nil =>
    have : fl = 0 := hseg
    omega
  | cons b l =>
    have hb := h.bounds (List.mem_append_left _ (.head _))
    have : fl = b.h := hseg.1
    omega

/-- The end of `extend_heap`: a new page is a new free block. -/
theorem HeapInv.pushPage (h : HeapInv m fl pages free used)
    (hp : p % 4096 = 0 ∧ 4096 ≤ p ∧ p + 4096 ≤ 0x200000) (hnew : p ∉ pages) :
    HeapInv (store (store m p 8 4080) (p + 8) 8 fl) p (pages ++ [p])
      (⟨p, 4080⟩ :: free) used := by
  have hfl := h.head_lt
  -- pages are aligned, so different pages are disjoint
  have hdisj : ∀ x, p ≤ x → x < p + 4096 → ¬ InPages pages x := by
    rintro x h1 h2 ⟨q, hq, h3, h4⟩
    have hqp : q = p := by
      have := h.page q hq
      omega
    exact hnew (hqp ▸ hq)
  have hkeep : ∀ c ∈ free ++ used, ∀ x, c.h ≤ x → x < c.h + 16 →
      store (store m p 8 4080) (p + 8) 8 fl x = m x := by
    intro c hc x h1 h2
    have hx : InPages pages x := h.tiles.mem hc (Blk.has_iff.mpr (by omega))
    have : ¬ (p ≤ x ∧ x < p + 4096) := fun hpx => hdisj x hpx.1 hpx.2 hx
    rw [store_of_not_mem (by omega), store_of_not_mem (by omega)]
  have hnext : blockNext (store (store m p 8 4080) (p + 8) 8 fl) p = fl := by
    unfold blockNext
    rw [load_store_of_lt (by omega)]
  refine ⟨⟨rfl, ?_, ?_⟩, headers_frame h.header fun b hb => hkeep b
    (List.mem_append_right _ hb), fun b hb => ?_, fun q hq => ?_, ?_⟩
  · show blockSize _ p = 4080
    unfold blockSize
    rw [load_store_of_disjoint (by omega), load_store_of_lt (by omega)]
  · show Seg _ free (blockNext _ p) 0
    rw [hnext]
    exact h.seg.frame fun c hc => hkeep c (List.mem_append_left _ hc)
  · rcases List.mem_cons.mp hb with rfl | hb
    · show p % 16 = 0 ∧ 4080 % 16 = 0
      omega
    · exact h.align b hb
  · rcases List.mem_append.mp hq with hq | hq
    · exact h.page q hq
    · rw [List.mem_singleton.mp hq]
      exact hp
  · refine Tiles.add h.tiles Blk.len_pos (fun x hx => ?_) fun x => ?_
    · exact hdisj x hx.1 hx.2
    · unfold InPages
      constructor
      · rintro ⟨q, hq, h1, h2⟩
        rcases List.mem_append.mp hq with hq | hq
        · exact .inl ⟨q, hq, h1, h2⟩
        · rw [List.mem_singleton.mp hq] at h1 h2
          exact .inr ⟨h1, h2⟩
      · rintro (⟨q, hq, h1, h2⟩ | ⟨h1, h2⟩)
        · exact ⟨q, List.mem_append_left _ hq, h1, h2⟩
        · exact ⟨p, List.mem_append_right _ (List.mem_singleton_self p), h1, h2⟩

-- ==== freeing

section Free

variable {rest : List Blk} {d : Blk}

/-- One merge of the coalescing loop. -/
theorem HeapInv.merge (h : HeapInv m fl pages (pre ++ c :: d :: rest) used)
    (hadj : c.h + 16 + c.size = d.h) :
    HeapInv (store (store m c.h 8 (c.size + (16 + d.size))) (c.h + 8) 8
        (blockNext m d.h)) fl pages
      (pre ++ ⟨c.h, c.size + (16 + d.size)⟩ :: rest) used := by
  have hperm : ((pre ++ c :: d :: rest) ++ used).Perm
      (c :: d :: (pre ++ rest ++ used)) := by
    refine (take_perm pre (d :: rest) used c).trans (List.Perm.cons _ ?_)
    exact take_perm pre rest used d
  have hnew := take_perm pre rest used ⟨c.h, c.size + (16 + d.size)⟩
  have hdb := h.bounds (hperm.mem_iff.mpr (.tail _ (.head _)))
  have hca := h.align c (hperm.mem_iff.mpr (.head _))
  have hda := h.align d (hperm.mem_iff.mpr (.tail _ (.head _)))
  have ht := h.tiles.perm hperm
  have hap := ht.apart
  rw [List.pairwise_cons] at hap
  have hkeep : ∀ b ∈ pre ++ rest ++ used, ∀ x, b.h ≤ x → x < b.h + 16 →
      store (store m c.h 8 (c.size + (16 + d.size))) (c.h + 8) 8
        (blockNext m d.h) x = m x := by
    intro b hb x h1 h2
    have := Blk.Apart.header (hap.1 b (.tail _ hb)) h1 h2
    rw [Blk.has_iff] at this
    rw [store_of_not_mem (by omega), store_of_not_mem (by omega)]
  obtain ⟨r, hpre, hc⟩ := Seg.append.mp h.seg
  obtain ⟨hcr, hcs, hdn, hds, hrest⟩ := hc
  have hlt : blockNext m d.h < 2 ^ 64 := load_lt _ _ _
  refine ⟨Seg.append.mpr ⟨r, hpre.frame fun b hb => hkeep b ?_, hcr, ?_, ?_⟩,
    headers_frame h.header fun b hb => hkeep b (List.mem_append_right _ hb), fun b hb => ?_,
    h.page, ?_⟩
  · exact List.mem_append_left _ (List.mem_append_left _ hb)
  · show blockSize _ c.h = c.size + (16 + d.size)
    unfold blockSize
    rw [load_store_of_disjoint (by omega), load_store_of_lt (by omega)]
  · show Seg _ rest (blockNext _ c.h) 0
    have hn : blockNext (store (store m c.h 8 (c.size + (16 + d.size)))
        (c.h + 8) 8 (blockNext m d.h)) c.h = blockNext m d.h :=
      load_store_of_lt (by omega)
    rw [hn]
    exact hrest.frame fun b hb => hkeep b
      (List.mem_append_left _ (List.mem_append_right _ hb))
  · rcases List.mem_cons.mp (hnew.mem_iff.mp hb) with rfl | hb
    · show c.h % 16 = 0 ∧ (c.size + (16 + d.size)) % 16 = 0
      omega
    · exact h.align b (hperm.mem_iff.mpr (.tail _ (.tail _ hb)))
  · have hd : d = ⟨c.h + 16 + c.size, d.size⟩ := by rw [hadj]
    rw [hd] at ht
    exact (Tiles.join ht).perm hnew.symm

/-- The list that coalescing makes of the block `c` and the blocks behind
it: a block that starts where the one before it ends is merged into it. -/
def joinFrom (c : Blk) : List Blk → List Blk
  | [] => [c]
  | d :: rest =>
      if c.h + 16 + c.size = d.h then joinFrom ⟨c.h, c.size + (16 + d.size)⟩ rest
      else c :: joinFrom d rest

/-- The coalescing loop, from the block `c` on: it ends, given fuel for
the rest of the list, and joins the blocks from `c` on. -/
theorem HeapInv.coalesce (rest : List Blk) :
    ∀ {m pre c fuel}, HeapInv m fl pages (pre ++ c :: rest) used →
      (coalesce fuel c.h m = none ∧ fuel < rest.length + 2)
        ∨ ∃ m', coalesce fuel c.h m = some m'
          ∧ HeapInv m' fl pages (pre ++ joinFrom c rest) used
          ∧ ∀ x, (∀ b ∈ pre ++ c :: rest, ¬ b.Has x) → m' x = m x := by
  induction rest with
  | nil =>
    intro m pre c fuel h
    have hc := h.bounds (List.mem_append_left _ (List.mem_append_right _ (.head _)))
    obtain ⟨r, -, -, -, hn⟩ := Seg.append.mp h.seg
    have hn : blockNext m c.h = 0 := hn
    match fuel with
    | 0 => exact .inl ⟨rfl, by decide⟩
    | fuel + 1 =>
      rw [Kernel.coalesce, if_neg (by omega)]
      rw [hn, if_neg fun h => h.1 rfl]
      match fuel with
      | 0 => exact .inl ⟨rfl, by decide⟩
      | fuel + 1 =>
        exact .inr ⟨m, if_pos rfl, h, fun x _ => rfl⟩
  | cons d rest ih =>
    intro m pre c fuel h
    have hc := h.bounds (List.mem_append_left _ (List.mem_append_right _ (.head _)))
    have hd := h.bounds (List.mem_append_left _ (List.mem_append_right _
      (.tail _ (.head _))))
    obtain ⟨r, -, -, hcs, hn, hds, -⟩ := Seg.append.mp h.seg
    match fuel with
    | 0 => exact .inl ⟨rfl, by simp⟩
    | fuel + 1 =>
      rw [Kernel.coalesce, if_neg (by omega)]
      dsimp only
      rw [hn, hcs, u64_of_lt (by omega)]
      by_cases hadj : c.h + 16 + c.size = d.h
      · -- merged: the list is one shorter
        have hlen : u64 (c.size + (16 + blockSize m d.h))
            = c.size + (16 + d.size) := by
          rw [hds]
          exact u64_of_lt (by omega)
        have hnn : blockNext (store m c.h 8 (c.size + (16 + d.size))) d.h
            = blockNext m d.h := load_store_of_disjoint (by omega)
        rw [if_pos ⟨by omega, hadj⟩, hlen, hnn]
        rw [joinFrom, if_pos hadj]
        rcases ih (h.merge hadj) with ⟨h1, h2⟩ | ⟨m', h1, h2, h3⟩
        · exact .inl ⟨h1, by rw [List.length_cons]; omega⟩
        · refine .inr ⟨m', h1, h2, fun x hx => ?_⟩
          have hxc := hx c (List.mem_append_right _ (.head _))
          have hxd := hx d (List.mem_append_right _ (.tail _ (.head _)))
          rw [Blk.has_iff] at hxc hxd
          rw [h3 x fun b hb => ?_, store_of_not_mem (by omega),
            store_of_not_mem (by omega)]
          rcases List.mem_append.mp hb with hb | hb
          · exact hx b (List.mem_append_left _ hb)
          · rcases List.mem_cons.mp hb with rfl | hb
            · rw [Blk.has_iff]
              dsimp only
              omega
            · exact hx b (List.mem_append_right _ (.tail _ (.tail _ hb)))
      · -- not neighbours in memory: on to the next block
        rw [if_neg fun h => hadj h.2, joinFrom, if_neg hadj]
        rw [List.append_cons] at h
        rw [List.append_cons pre c (joinFrom d rest), List.append_cons pre c (d :: rest)]
        rcases ih h with ⟨h1, h2⟩ | hrun
        · exact .inl ⟨h1, by rw [List.length_cons]; omega⟩
        · exact .inr hrun

/-- `kernel_free` of a used block: it returns, given fuel for the list,
and the block is free, joined with the blocks behind it. -/
theorem HeapInv.kernelFree {u : Blk}
    (h : HeapInv s.mem s.freeList s.heapPages free (u :: used)) (fuel : Nat) :
    (kernelFree fuel (u.h + 16) s = (.error .hang, s)
        ∧ fuel < free.length + 2)
      ∨ ∃ m', kernelFree fuel (u.h + 16) s
          = (.ok (), { s with mem := m', freeList := u.h })
        ∧ HeapInv m' u.h s.heapPages (joinFrom u free) used
        ∧ ∀ x, (∀ b ∈ u :: free, ¬ b.Has x) → m' x = s.mem x := by
  have humem : u ∈ free ++ u :: used :=
    List.mem_append_right _ (.head _)
  have hub := h.bounds humem
  have hfl := h.head_lt
  obtain ⟨husz, hunext⟩ := h.header u (.head _)
  have hblock : u64 (u.h + 16 + (2 ^ 64 - 16)) = u.h := by
    unfold u64
    omega
  have hvalid : validBlock s u.h = true := by
    obtain ⟨p, hp, h1, h2⟩ := h.tiles.mem humem
      (show u.Has u.h from Blk.has_iff.mpr (by omega))
    refine List.any_eq_true.mpr ⟨p, hp, ?_⟩
    simp only [Bool.and_eq_true, decide_eq_true_eq]
    exact ⟨h1, h2⟩
  have hap := (h.tiles.perm List.perm_middle).apart
  rw [List.pairwise_cons] at hap
  -- zeroing and linking stay inside the block
  have hin : ∀ x, (x < u.h + 8 ∨ u.h + 16 + u.size ≤ x) →
      store (fill s.mem (u.h + 16) u.size 0) (u.h + 8) 8 s.freeList x
        = s.mem x := by
    intro x hx
    rw [store_of_not_mem (by omega), fill_of_not_mem (by omega)]
  have hkeep : ∀ c ∈ free ++ used, ∀ x, c.h ≤ x → x < c.h + 16 →
      store (fill s.mem (u.h + 16) u.size 0) (u.h + 8) 8 s.freeList x
        = s.mem x := by
    intro c hc x h1 h2
    have := Blk.Apart.header (hap.1 c hc) h1 h2
    rw [Blk.has_iff] at this
    exact hin x (by omega)
  have hpushed : HeapInv
      (store (fill s.mem (u.h + 16) u.size 0) (u.h + 8) 8 s.freeList) u.h
      s.heapPages ([] ++ u :: free) used := by
    refine ⟨⟨rfl, ?_, ?_⟩, headers_frame (fun b hb => h.header b (.tail _ hb))
      fun b hb => hkeep b (List.mem_append_right _ hb), fun b hb => ?_, h.page,
      h.tiles.perm List.perm_middle⟩
    · refine (load_store_of_disjoint (by omega)).trans ?_
      exact (load_fill_of_disjoint (by omega)).trans husz
    · have hn : blockNext (store (fill s.mem (u.h + 16) u.size 0) (u.h + 8) 8
          s.freeList) u.h = s.freeList := by
        unfold blockNext
        rw [load_store_of_lt (by omega)]
      rw [hn]
      exact h.seg.frame fun c hc => hkeep c (List.mem_append_left _ hc)
    · exact h.align b (List.perm_middle.mem_iff.mpr hb)
  unfold Kernel.kernelFree
  rw [Prog.get_bind]
  rw [hblock, hunext, husz, if_neg ?_]
  · rcases HeapInv.coalesce free hpushed with ⟨h1, h2⟩ | ⟨m', h1, h2, h3⟩
    · exact .inl ⟨by rw [h1]; rfl, h2⟩
    · refine .inr ⟨m', by rw [h1]; rfl, h2, fun x hx => ?_⟩
      have hxu := hx u (.head _)
      rw [Blk.has_iff] at hxu
      rw [h3 x hx, hin x (by omega)]
  · rintro (h | h | h)
    · omega
    · exact h hvalid
    · exact h rfl

end Free

end RojocOS.Kernel
