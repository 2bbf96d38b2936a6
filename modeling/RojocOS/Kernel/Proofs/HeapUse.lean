/-
The heap on the kernel's own pages.

`kernel_malloc` extends the heap with `page_alloc(PO_KERNEL_HEAP)`. Here
it runs in a state with the whole machine invariant, where such a page is
nobody's (`MInv.extendHeap`), and what it leaves is the invariant with one
more block in use (`MInv.kmalloc`). Which blocks are in use is a matter of
the bytes: two ways to read them give the same blocks
(`HeapInv.used_unique`).
-/
import RojocOS.Kernel.Proofs.Space

namespace RojocOS.Kernel

open ByteMap Prog

variable {E : KEnv} {role : Roles} {used : List Blk} {s s' s'' : KState}

-- ==== blocks

section Blocks

variable {m : ByteMap} {fl : Nat} {pages : List Nat} {free free' used' : List Blk}

theorem Seg.size {l : List Blk} :
    ∀ {p q}, Seg m l p q → ∀ b ∈ l, blockSize m b.h = b.size := by
  induction l with
  | nil => exact fun _ b hb => absurd hb List.not_mem_nil
  | cons c l ih =>
    rintro p q ⟨-, hsz, hl⟩ b hb
    rcases List.mem_cons.mp hb with rfl | hb
    · exact hsz
    · exact ih hl b hb

theorem HeapInv.size (h : HeapInv m fl pages free used) :
    ∀ b ∈ free ++ used, blockSize m b.h = b.size := by
  intro b hb
  rcases List.mem_append.mp hb with hb | hb
  · exact h.seg.size b hb
  · exact (h.header b hb).1

/-- The bytes of the heap say which blocks are in use. -/
theorem HeapInv.used_unique (h : HeapInv m fl pages free used)
    (h' : HeapInv m fl pages free' used') {b : Blk} : b ∈ used ↔ b ∈ used' := by
  obtain rfl := h.seg.unique h'.seg h.head_ne h'.head_ne
  have hall : ∀ {b}, b ∈ free ++ used ↔ b ∈ free ++ used' := by
    refine h.tiles.mem_unique h'.tiles (fun b _ => b.len_pos) (fun b _ => b.len_pos)
      fun b hb c hc heq => ?_
    have h1 := h.size b hb
    have h2 := h'.size c hc
    obtain ⟨h, size⟩ := b
    obtain ⟨h', size'⟩ := c
    dsimp only at heq h1 h2
    subst heq
    rw [← h1, ← h2]
  -- a block is not both free and in use
  have hboth : ∀ {u}, (free ++ u).Pairwise Blk.Apart → b ∈ free → b ∉ u := by
    intro u hap hb hu
    have hself := (List.pairwise_append.mp hap).2.2 b hb b hu
    have hin : b.Has b.h := ⟨Nat.le_refl _, Nat.lt_add_of_pos_right b.len_pos⟩
    exact hself.not_inside hin hin
  constructor
  · intro hb
    refine (List.mem_append.mp (hall.mp (List.mem_append_right _ hb))).resolve_left fun hf => ?_
    exact hboth h.tiles.apart hf hb
  · intro hb
    refine (List.mem_append.mp (hall.mpr (List.mem_append_right _ hb))).resolve_left fun hf => ?_
    exact hboth h'.tiles.apart hf hb

/-- Memory has room for so many blocks. -/
theorem HeapInv.length_le (h : HeapInv m fl pages free used) : free.length ≤ 131072 := by
  have hlen := h.tiles.length_le (k := 16) (fun b _ => by unfold Blk.len; omega)
    fun a ha => (InPages.low h.page ha).2
  rw [List.length_append] at hlen
  omega

end Blocks

-- ==== effect

theorem HeapBare.work {o : Int} {k : Nat} {role' : Roles} (h : HeapBare role s)
    (hm : MInv E role used s) (hw : Work o k role s role' s') : HeapBare role' s' := by
  intro p hp
  rw [hw.heapPages] at hp
  have hn : p / 4096 ∉ freeQueue s := by
    intro hin
    have hown := hm.free_info hin
    rw [hm.heapOwn p hp] at hown
    cases hown
  rw [hw.role _ hn]
  exact h p hp

/-- Only the heap and the kernel's own table changed. -/
structure HeapWork (role : Roles) (used : List Blk) (s s' : KState) : Prop where
  frame : Frame (fun o => o = -2 ∨ o = -3) role s role s'
  /-- A page is what it was, or a new one of the heap. -/
  owner : ∀ pn, s'.pageinfo pn = s.pageinfo pn ∨ s'.pageinfo pn = ⟨-3, 1⟩
  kept : ∀ u ∈ used, ∀ x, u.Has x → s'.mem x = s.mem x
  rest : s' = { s with
    mem := s'.mem, pageinfo := s'.pageinfo, pageno := s'.pageno
    heapPages := s'.heapPages, freeList := s'.freeList }

theorem HeapWork.refl : HeapWork role used s s :=
  ⟨Frame.refl, fun _ => .inl rfl, fun _ _ _ _ => rfl, rfl⟩

theorem HeapWork.trans (h : HeapWork role used s s') (h' : HeapWork role used s' s'') :
    HeapWork role used s s'' := by
  refine ⟨h.frame.trans h'.frame, fun pn => ?_, fun u hu x hx => ?_, ?_⟩
  · rcases h'.owner pn with h2 | h2
    · rw [h2]
      exact h.owner pn
    · exact .inr h2
  · exact (h'.kept u hu x hx).trans (h.kept u hu x hx)
  · rw [h'.rest, h.rest]

-- ==== extend_heap

/-- Pages of the heap are not tables, so the heap can change. -/
theorem MInv.in_heap (h : MInv E role used s) (hb : HeapBare role s) {m' : ByteMap}
    {fl' : Nat} {free' used' : List Blk} (hinv : HeapInv m' fl' s.heapPages free' used')
    (hout : ∀ x, ¬ InPages s.heapPages x → m' x = s.mem x) :
    MInv E role used' { s with mem := m', freeList := fl' }
      ∧ Frame (fun o => o = -2 ∨ o = -3) role s role { s with mem := m', freeList := fl' } := by
  have hpage : ∀ pn, (s.pageinfo pn).owner ≠ -3 → ∀ x, x / 4096 = pn → m' x = s.mem x := by
    intro pn hne x hx
    refine hout x fun ⟨p, hp, h1, h2⟩ => hne ?_
    have hal := hinv.page p hp
    have hpn : p / 4096 = pn := by omega
    rw [← hpn, h.heapOwn p hp]
  have hrole : ∀ pn q, role pn = some q → ∀ x, pn * 4096 ≤ x → x < pn * 4096 + 4096 →
      m' x = s.mem x := by
    exact fun pn q hq x h1 h2 => hout x (hb.outside hinv hq h1 h2)
  refine ⟨⟨h.tables.congr fun pn q hq _ => hrole pn q hq,
    h.kernel.congr h.tables fun pn q hq _ => hrole pn q hq, fun pn hpn => ?_, h.own, h.boot,
    h.count, ⟨free', hinv⟩, h.heapOwn, h.cursor⟩, ?_⟩
  · dsimp only
    rw [h.tables.leafEntry_congr h.kernel.root fun pn l pre hp => hrole pn _ hp]
    exact h.identity pn hpn
  · exact fun pn _ hS => ⟨rfl, rfl, hpage pn fun h3 => hS (.inr h3)⟩

/-- The kernel's table still maps every page to itself. -/
theorem MInv.identity_grown (h : MInv E role used s) {pn q : Nat} (hpn : pn < 512)
    (hr : role pn = none) (hinfo : s.pageinfo pn = ⟨-3, 1⟩) (hq : q < 512) :
    ∃ f, leafEntry (grown E (pn * 4096) s).mem E.ktab (q * 4096) = q * 4096 + f
      ∧ f % 2 = 1 ∧ f < 8 ∧ (E.KernelPage q → f = 7) := by
  have hdiv : pn * 4096 / 4096 = pn := Nat.mul_div_cancel _ (by decide)
  have hlow := h.kernel.leaf (pn * 4096) (by omega)
  have hleaf := h.tables.leafTable_some h.kernel.root hlow
  obtain ⟨-, -, -, hidx⟩ := pageindex_low (pn * 4096) (by omega)
  rw [hdiv] at hidx
  -- the page is not a table, so only the entry counts
  have hsame : leafEntry (Kernel.grown E (pn * 4096) s).mem E.ktab (q * 4096)
      = leafEntry (store s.mem ((E.ktab + 3) * 4096 + 8 * pageindex (pn * 4096) 3) 8
          (pn * 4096 + 3)) E.ktab (q * 4096) := by
    refine (h.tables.toTrees.store_leaf hleaf (pageindex_lt _ _)).leafEntry_congr h.kernel.root
      fun t l pre ht x h1 h2 => ?_
    have hne := role_ne hr ht
    rw [hidx]
    show store (store (store (fill s.mem (pn * 4096) 4096 0)
      ((E.ktab + 3) * 4096 + 8 * (pn * 4096 / 4096)) 8 (pn * 4096 + 3)) (pn * 4096) 8 4080)
      (pn * 4096 + 8) 8 s.freeList x = _
    rw [store_of_not_mem (by omega), store_of_not_mem (by omega), hdiv]
    exact if_congr Iff.rfl rfl (fill_of_not_mem (by omega))
  rw [hsame, h.tables.toTrees.leafEntry_page h.kernel.root hlow (by omega),
    vpn_page (by omega), vpn_page (by omega)]
  by_cases heq : q = pn
  · subst heq
    refine ⟨3, if_pos rfl, rfl, by decide, fun hk => ?_⟩
    have hb := bootOwner_kernel hk
    have hboot := h.boot q hq (by rw [hb]; decide)
    rw [hinfo, hb] at hboot
    cases hboot
  · rw [if_neg heq]
    exact h.identity q hq

/-- A page that was taken for the heap joins it. -/
theorem MInv.grown (h : MInv E role used s) (hb : HeapBare role s) {pn : Nat}
    (hpn : pn < 512) (h0 : pn ≠ 0) (hr : role pn = none) (hinfo : s.pageinfo pn = ⟨-3, 1⟩)
    (hnew : pn * 4096 ∉ s.heapPages) :
    MInv E role used (grown E (pn * 4096) s) ∧ HeapBare role (Kernel.grown E (pn * 4096) s)
      ∧ HeapWork role used s (Kernel.grown E (pn * 4096) s) := by
  have hdiv : pn * 4096 / 4096 = pn := Nat.mul_div_cancel _ (by decide)
  obtain ⟨free, hinv⟩ := h.heap
  have hleaf := h.tables.leafTable_some h.kernel.root (h.kernel.leaf 0 (by decide))
  obtain ⟨hpush, ht, hk, hbare, hout, hin⟩ := hinv.grown h.tables h.kernel hb
    (by omega) (hdiv.symm ▸ hr) hnew
  refine ⟨⟨ht, hk, fun q hq => h.identity_grown hpn hr hinfo hq, h.own, h.boot, h.count,
    ⟨_, hpush⟩, fun p hp => ?_, h.cursor⟩, hbare,
    ⟨fun q _ hS => ⟨rfl, rfl, fun x hx => hout x ?_ ?_⟩, fun _ => .inl rfl,
      fun u hu x hx => hin x (hinv.tiles.mem (List.mem_append_right _ hu) hx), rfl⟩⟩
  · rcases List.mem_append.mp hp with hp | hp
    · exact h.heapOwn p hp
    · rw [List.mem_singleton.mp hp, hdiv]
      exact hinfo
  · intro heq
    refine hS (.inr ?_)
    rw [← hx, heq, hdiv, hinfo]
  · intro heq
    refine hS (.inl ?_)
    rw [← hx, heq, (h.own _ _ hleaf).1]

/-- One page at most went to the heap. -/
structure Spends (s s' : KState) : Prop where
  pages : s'.heapPages.length ≤ s.heapPages.length + 1
  queue : (freeQueue s).length ≤ (freeQueue s').length + 1

theorem Spends.refl (s : KState) : Spends s s := ⟨Nat.le_succ _, Nat.le_succ _⟩

/-- `extend_heap`: with a free page and room in `heap_pageinfo` the heap
has one more page, else nothing happens. -/
theorem MInv.extendHeap (h : MInv E role used s) (hb : HeapBare role s) :
    ∃ s', Kernel.extendHeap E (pageAlloc PO_KERNEL_HEAP) s = (.ok (), s')
      ∧ MInv E role used s' ∧ HeapBare role s' ∧ HeapWork role used s s' ∧ Spends s s'
      ∧ (s.heapPages.length < 1024 → freeQueue s ≠ [] →
          s'.freeList ≠ 0 ∧ blockSize s'.mem s'.freeList = 4080) := by
  by_cases hlen : 1024 ≤ s.heapPages.length
  · refine ⟨s, ?_, h, hb, HeapWork.refl, Spends.refl s, fun hlt => absurd hlen (by omega)⟩
    unfold Kernel.extendHeap
    rw [get_bind, if_pos hlen]
    rfl
  rcases h.page_alloc (o := PO_KERNEL_HEAP) (by decide) with ⟨hq, heq⟩ |
    ⟨pn, rest, s1, hq, h0, hlt, hr, heq, hbuilt, h₁, hinfo, hmem, hframe⟩
  · refine ⟨s, ?_, h, hb, HeapWork.refl, Spends.refl s, fun _ hne => absurd hq hne⟩
    unfold Kernel.extendHeap
    rw [get_bind, if_neg hlen, bind_of_ok heq, if_pos rfl]
    rfl
  have hdiv : pn * 4096 / 4096 = pn := Nat.mul_div_cancel _ (by decide)
  have hb1 : HeapBare role s1 := by
    unfold HeapBare
    rw [hbuilt.heapPages]
    exact hb
  have hnew : pn * 4096 ∉ s1.heapPages := by
    rw [hbuilt.heapPages]
    intro hin
    have hown := h.heapOwn _ hin
    have hfree : pn ∈ freeQueue s := hq ▸ List.mem_cons_self
    rw [hdiv, h.free_info hfree] at hown
    cases hown
  obtain ⟨h₂, hb2, hw⟩ := h₁.grown hb1 hlt h0 hr hinfo hnew
  have hext := extendHeap_eq (by omega) heq (by omega) (Nat.mul_mod_left _ _)
    (by omega) h₁.tables h₁.kernel (hdiv.symm ▸ hr)
  obtain ⟨free, hinv⟩ := h.heap
  have hw1 : HeapWork role used s s1 := by
    refine ⟨hframe.mono fun _ hF => hF.elim, fun q => ?_, fun u hu x hx => ?_, ?_⟩
    · rw [hbuilt.pages q]
      by_cases hin : q ∈ (freeQueue s).take 1
      · exact .inr (if_pos hin)
      · exact .inl (if_neg hin)
    · obtain ⟨p, hp, h1, h2⟩ := hinv.tiles.mem (List.mem_append_right _ hu) hx
      have hal := hinv.page p hp
      exact (hframe.page (h.heapOwn p hp) (by decide) fun hF => hF).2.2 x (by omega) (by omega)
    · rw [hbuilt.mach]
  have hspend : Spends s (Kernel.grown E (pn * 4096) s1) := by
    have hqueue : freeQueue (Kernel.grown E (pn * 4096) s1) = (freeQueue s).drop 1 :=
      hbuilt.queue
    refine ⟨?_, ?_⟩
    · show (s1.heapPages ++ [pn * 4096]).length ≤ _
      rw [hbuilt.heapPages, List.length_append, List.length_singleton]
    · rw [hqueue, List.length_drop]
      omega
  refine ⟨_, hext, h₂, hb2, hw1.trans hw, hspend,
    fun _ _ => ⟨Nat.mul_ne_zero h0 (by decide), ?_⟩⟩
  show load (store (store _ (pn * 4096) 8 4080) (pn * 4096 + 8) 8 _) (pn * 4096) 8 = 4080
  rw [load_store_of_disjoint (by omega), load_store_of_lt (by omega)]

-- ==== kernel_malloc

/-- A block of at least `size` zero bytes at `p` is in use from now on,
and nothing else happened. -/
def Got (E : KEnv) (role : Roles) (used : List Blk) (s : KState) (size p : Nat)
    (s' : KState) : Prop :=
  ∃ b : Blk, p = b.h + 16 ∧ size ≤ b.size ∧ (∀ x, x < b.size → s'.mem (p + x) = 0)
    ∧ MInv E role (b :: used) s' ∧ HeapBare role s' ∧ HeapWork role used s s'

theorem MInv.takeBlock (h : MInv E role used s) (hb : HeapBare role s) {size fuel cur : Nat}
    {prev : Link} (hs0 : size ≠ 0)
    (hf : findFit s.mem (alignSize (size + 16)) fuel .head s.freeList
      = some (some (prev, cur))) :
    Got E role used s size (cur + 16) (takeBlock (alignSize (size + 16)) prev cur s) := by
  obtain ⟨free, hinv⟩ := h.heap
  obtain ⟨m', fl', free', k, heq, hinv', hk, hzero, hused, hin⟩ := hinv.takeBlock hs0 hf
  obtain ⟨h', hframe⟩ := h.in_heap hb hinv' hin
  rw [heq]
  exact ⟨⟨cur, k⟩, rfl, hk, hzero, h', hb, hframe, fun _ => .inl rfl, hused, rfl⟩

/-- A `kernel_malloc` that comes back has got a block, or found that there
is none; one that does not has run out of turns. -/
theorem MInv.kmalloc (h : MInv E role used s) (hb : HeapBare role s) (size : Nat) :
    (∀ p s', kmalloc E size s = (.ok p, s') →
      (p = 0 ∧ MInv E role used s' ∧ HeapBare role s' ∧ HeapWork role used s s')
        ∨ Got E role used s size p s')
      ∧ ∀ e s', Kernel.kmalloc E size s = (.error e, s') → e = .hang := by
  unfold Kernel.kmalloc kernelMalloc
  by_cases hsz : size = 0 ∨ 4080 < size
  · rw [if_pos hsz]
    refine ⟨fun p s' hrun => ?_, fun e s' hrun => ?_⟩
    · cases hrun
      exact .inl ⟨rfl, h, hb, HeapWork.refl⟩
    · cases hrun
  rw [if_neg hsz]
  refine mallocLoop_triple
   
    ?_ ?_ (fun t ht _ => .inl ⟨rfl, ht⟩) (fun _ _ => rfl) E.fuel s
    ⟨h, hb, HeapWork.refl⟩
  · rintro t ⟨ht, hbt, hwt⟩
    obtain ⟨t', heq, ht', hbt', hwt', -, -⟩ := ht.extendHeap hbt
    rw [heq]
    refine ⟨fun u t'' hrun => ?_, fun e t'' hrun => ?_⟩
    · cases hrun
      exact ⟨ht', hbt', hwt.trans hwt'⟩
    · cases hrun
  · rintro t fuel prev cur ⟨ht, hbt, hwt⟩ hf
    obtain ⟨b, hp, hle, hzero, hm, hbare, hw⟩ := ht.takeBlock hbt (fun h0 => hsz (.inl h0)) hf
    exact .inr ⟨b, hp, hle, hzero, hm, hbare, hwt.trans hw⟩

theorem takeBlock_same (a : Nat) (prev : Link) (cur : Nat) (s : KState) :
    (takeBlock a prev cur s).heapPages = s.heapPages
      ∧ freeQueue (takeBlock a prev cur s) = freeQueue s := by
  unfold takeBlock unlinkBlock
  cases prev <;> dsimp only <;> split <;> exact ⟨rfl, rfl⟩

theorem Spends.takeBlock {a cur : Nat} {prev : Link} (h : Spends s s') :
    Spends s (takeBlock a prev cur s') := by
  have hsame := takeBlock_same a prev cur s'
  refine ⟨?_, ?_⟩
  · rw [hsame.1]
    exact h.pages
  · rw [hsame.2]
    exact h.queue

/-- With a page to spare there is a block. -/
theorem MInv.kmalloc_some (h : MInv E role used s) (hb : HeapBare role s) {size : Nat}
    (hs0 : 0 < size) (hs : size ≤ 4064) (hfuel : 131074 ≤ E.fuel)
    (hlen : s.heapPages.length < 1024) (hq : freeQueue s ≠ []) :
    ∃ p s', Kernel.kmalloc E size s = (.ok p, s') ∧ p ≠ 0 ∧ Spends s s' := by
  obtain ⟨free, hinv⟩ := h.heap
  have hfree := hinv.length_le
  have hal : alignSize (size + 16) ≤ 4080 := by
    unfold alignSize
    omega
  obtain ⟨n, hn⟩ : ∃ n, E.fuel = n + 2 := ⟨E.fuel - 2, by omega⟩
  unfold Kernel.kmalloc kernelMalloc
  rw [if_neg (by omega), hn, mallocLoop, get_bind]
  rcases findFit_spec (n + 1 + 1) hinv.seg
    hinv.head_ne with ⟨hf, hle⟩ | ⟨hf, -⟩ | ⟨pre, b, -, -, -, hf⟩ <;> rw [hf]
  · omega
  · -- a new page is the head of the list, and large enough
    obtain ⟨s1, hext, -, -, -, hspend, hroom⟩ := h.extendHeap hb
    obtain ⟨hne, hsize⟩ := hroom hlen hq
    have hfit : findFit s1.mem (alignSize (size + 16)) (n + 1) .head s1.freeList
        = some (some (.head, s1.freeList)) := by
      rw [findFit, if_neg hne, if_pos (hsize.symm ▸ hal)]
    dsimp only
    rw [bind_of_ok hext, get_bind, if_neg hne, mallocLoop, get_bind, hfit]
    exact ⟨s1.freeList + 16, _, rfl, by omega, hspend.takeBlock⟩
  · exact ⟨b.h + 16, _, rfl, by omega, (Spends.refl s).takeBlock⟩

end RojocOS.Kernel
