/-
Runs of the kernel heap.

A run interleaves `kernel_malloc`, `kernel_free` and the writes of
clients into their own blocks, in any order and with any page source
that keeps its side: it returns `0`, or a page of memory that neither the
heap nor the kernel's page table uses (`PageSource`). The ghost state of
a run is the list of live pointers with the sizes asked for.

`heap_run_partition` is the result: in every state of every run the free
list and the live blocks partition the pages of the heap.
-/
import RojocOS.Kernel.Proofs.Heap
import Mathlib.Logic.Relation

namespace RojocOS.Kernel

open ByteMap Tiling Prog

variable {E : KEnv} {pageAlloc : KM Nat}
variable {fl fuel p pn size x : Nat} {q : Place} {m m' : ByteMap}
  {free used used' : List Blk} {pages : List Nat} {live : List (Nat × Nat)}
variable {s : KState}

-- ==== extend_heap

section Extend

variable {s₁ : KState} {role : Roles}

theorem role_ne {pn' : Nat} (hr : role pn' = none)
    (hq : role pn = some q) : pn ≠ pn' := by
  rintro rfl
  rw [hr] at hq
  cases hq

/-- The heap's new page in the kernel's table, and its header. -/
def grown (E : KEnv) (p : Nat) (s : KState) : KState :=
  pushPage p { s with
    mem := store (fill s.mem p 4096 0) ((E.ktab + 3) * 4096 + 8 * (p / 4096)) 8 (p + 3) }

/-- `extend_heap` once `page_alloc` has returned a page. -/
theorem extendHeap_eq (hlen : s.heapPages.length < 1024)
    (halloc : pageAlloc s = (.ok p, s₁)) (hp0 : p ≠ 0) (hp : p % 4096 = 0)
    (hhi : p + 4096 ≤ 0x200000) (ht : Tables s₁.mem role)
    (hk : KernelTree E s₁.mem role) (hr : role (p / 4096) = none) :
    extendHeap E pageAlloc s = (.ok (), grown E p s₁) := by
  have hz : ∀ pn q, role pn = some q → ∀ x, pn * 4096 ≤ x →
      x < pn * 4096 + 4096 → fill s₁.mem p 4096 0 x = s₁.mem x := by
    intro pn q hq x h1 h2
    refine fill_of_not_mem ?_
    have hne := role_ne hr hq
    omega
  have hmap := KernelTree.map_page (E := E) (s := { s₁ with mem := fill s₁.mem p 4096 0 })
    (ht.congr fun pn q hq _ => hz pn q hq)
    (hk.congr ht fun pn q hq _ => hz pn q hq) hp hhi (show 3 < 4096 by decide) (by decide)
  unfold extendHeap
  rw [get_bind, if_neg (by omega), bind_of_ok halloc, if_neg hp0,
    bind_of_ok (x := memzero p 4096) rfl, bind_of_ok hmap]
  rfl

/-- No page of the heap holds a table. -/
def HeapBare (role : Roles) (s : KState) : Prop :=
  ∀ p ∈ s.heapPages, role (p / 4096) = none

theorem HeapBare.outside (hb : HeapBare role s)
    (hinv : HeapInv m fl s.heapPages free used)
    (hq : role pn = some q) (h1 : pn * 4096 ≤ x) (h2 : x < pn * 4096 + 4096) :
    ¬ InPages s.heapPages x := by
  rintro ⟨p, hp, h3, h4⟩
  have hal := hinv.page p hp
  exact role_ne (hb p hp) hq (by omega)

/-- What a new heap page does to memory: its own bytes, and one
last-level entry of the kernel's table. -/
theorem HeapInv.grown
    (hinv : HeapInv s.mem s.freeList s.heapPages free used) (ht : Tables s.mem role)
    (hk : KernelTree E s.mem role) (hb : HeapBare role s)
    (hp : p % 4096 = 0 ∧ 4096 ≤ p ∧ p + 4096 ≤ 0x200000) (hr : role (p / 4096) = none)
    (hnew : p ∉ s.heapPages) :
    HeapInv (grown E p s).mem p (s.heapPages ++ [p]) (⟨p, 4080⟩ :: free) used
      ∧ Tables (Kernel.grown E p s).mem role ∧ KernelTree E (Kernel.grown E p s).mem role
      ∧ HeapBare role (Kernel.grown E p s)
      ∧ (∀ x, x / 4096 ≠ p / 4096 → x / 4096 ≠ E.ktab + 3 →
          (Kernel.grown E p s).mem x = s.mem x)
      ∧ ∀ x, InPages s.heapPages x → (Kernel.grown E p s).mem x = s.mem x := by
  have hleaf := ht.leafTable_some hk.root (hk.leaf 0 (by decide))
  have hout : ∀ x, x / 4096 ≠ p / 4096 → x / 4096 ≠ E.ktab + 3 →
      (Kernel.grown E p s).mem x = s.mem x := by
    intro x h1 h2
    show store (store (store (fill s.mem p 4096 0) _ 8 _) p 8 4080) (p + 8) 8 s.freeList x = _
    rw [store_of_not_mem (by omega), store_of_not_mem (by omega),
      store_of_not_mem (by omega), fill_of_not_mem (by omega)]
  -- the tables above the last level and the old pages are outside both
  have hupper : ∀ pn q, role pn = some q → q.level < 3 → ∀ x, pn * 4096 ≤ x →
      x < pn * 4096 + 4096 → (Kernel.grown E p s).mem x = s.mem x := by
    intro pn q hq hl x h1 h2
    have hx : x / 4096 = pn := by omega
    refine hout x (hx ▸ role_ne hr hq) fun hk => ?_
    rw [← hx, hk, hleaf] at hq
    cases hq
    exact absurd hl (Nat.lt_irrefl 3)
  have hold : ∀ x, InPages s.heapPages x → x / 4096 ≠ p / 4096 ∧ x / 4096 ≠ E.ktab + 3 := by
    intro x hx
    refine ⟨fun heq => ?_, fun hk => hb.outside hinv hleaf (by omega) (by omega) hx⟩
    obtain ⟨q, hq, h1, h2⟩ := hx
    have hal := hinv.page q hq
    have hqp : q = p := by omega
    exact hnew (hqp ▸ hq)
  have hM : HeapInv (store (fill s.mem p 4096 0)
      ((E.ktab + 3) * 4096 + 8 * (p / 4096)) 8 (p + 3)) s.freeList s.heapPages free used := by
    refine hinv.frame_pages fun x hx => ?_
    obtain ⟨h1, h2⟩ := hold x hx
    rw [store_of_not_mem (by omega), fill_of_not_mem (by omega)]
  refine ⟨hM.pushPage hp hnew, ht.congr hupper, hk.congr ht hupper, fun q hq => ?_, hout,
    fun x hx => hout x (hold x hx).1 (hold x hx).2⟩
  rcases List.mem_append.mp hq with hq | hq
  · exact hb q hq
  · rw [List.mem_singleton.mp hq]
    exact hr

end Extend

-- ==== kernel_malloc

section Malloc

variable {a : Nat} {J : KState → Prop} {Q : Nat → KState → Prop}
  {F : Stop → KState → Prop}

/-- The rule for `kernel_malloc`'s search and retry: what `extend_heap`
keeps, and what taking a block establishes. -/
theorem mallocLoop_triple (hext : Triple J (extendHeap E pageAlloc) (fun _ => J) F)
    (htake : ∀ s fuel prev cur, J s →
      findFit s.mem a fuel .head s.freeList = some (some (prev, cur)) →
      Q (cur + 16) (takeBlock a prev cur s))
    (hnull : ∀ s, J s → s.freeList = 0 → Q 0 s)
    (hhang : ∀ s, J s → F .hang s) :
    ∀ fuel, Triple J (mallocLoop E pageAlloc a fuel) Q F := by
  intro fuel
  induction fuel with
  | zero => exact Triple.stop hhang
  | succ fuel ih =>
    intro s hs
    rw [mallocLoop, get_bind]
    rcases hf : findFit s.mem a (fuel + 1) .head s.freeList with - | - | ⟨prev, cur⟩
    · exact Triple.stop hhang s hs
    · refine Triple.bind hext (fun _ => ?_) s hs
      intro s₁ hs1
      rw [get_bind]
      by_cases h0 : s₁.freeList = 0
      · rw [if_pos h0]
        exact Triple.pure (P := fun t => t = s₁) (fun t ht => ht ▸ hnull s₁ hs1 h0) s₁ rfl
      · rw [if_neg h0]
        exact ih s₁ hs1
    · refine Triple.pure (P := fun t => t = takeBlock a prev cur s)
        (fun t ht => ht ▸ htake s (fuel + 1) prev cur hs hf) (takeBlock a prev cur s) rfl

end Malloc

-- ==== clients

/-- A fresh page: memory that is not in use by the heap or by the
kernel's page table. Page 0 is not one, since `0` means failure. -/
def Fresh (E : KEnv) (s : KState) (p : Nat) : Prop :=
  p % 4096 = 0 ∧ 4096 ≤ p ∧ p + 4096 ≤ 0x200000 ∧ p ∉ s.heapPages
    ∧ (p + 4096 ≤ E.kernelPagetables ∨ E.kernelPagetables + 20480 ≤ p)

/-- What the heap needs from `page_alloc`: it returns, it returns `0` or
a fresh page, and it changes at most this page and its own
variables. -/
def PageSource (E : KEnv) (pageAlloc : KM Nat) : Prop :=
  ∀ s, ∃ p s', pageAlloc s = (.ok p, s') ∧ (p = 0 ∨ Fresh E s p)
    ∧ s'.heapPages = s.heapPages ∧ s'.freeList = s.freeList
    ∧ ∀ x, (p = 0 ∨ x < p ∨ p + 4096 ≤ x) → s'.mem x = s.mem x

/-- The heap with the used blocks `used`, whose bytes are as in `m₀`,
and the kernel's table beside it. -/
structure HeapOk (E : KEnv) (m₀ : ByteMap) (used : List Blk) (s : KState) : Prop where
  heap : ∃ free, HeapInv s.mem s.freeList s.heapPages free used
  kept : ∀ u ∈ used, ∀ x, u.Has x → s.mem x = m₀ x
  tables : Tables s.mem (kernelRoles E)
  kernel : KernelTree E s.mem (kernelRoles E)
  noRole : HeapBare (kernelRoles E) s

theorem kernelRoles_none (hp : p % 4096 = 0)
    (h : p + 4096 ≤ E.kernelPagetables ∨ E.kernelPagetables + 20480 ≤ p) :
    kernelRoles E (p / 4096) = none := by
  rw [E.kernelPagetables_eq] at h
  unfold kernelRoles
  rw [if_neg (by omega), if_neg (by omega), if_neg (by omega),
    if_neg (by omega), if_neg (by omega)]

section Steps

variable {m₀ : ByteMap}

/-- A change inside the heap's pages leaves the kernel's table. -/
theorem HeapOk.of_inside (h : HeapOk E m₀ used s) {fl' : Nat}
    {free' : List Blk} {m1 : ByteMap} (hinv : HeapInv m' fl' s.heapPages free' used')
    (hkept : ∀ u ∈ used', ∀ x, u.Has x → m' x = m1 x)
    (hout : ∀ x, ¬ InPages s.heapPages x → m' x = s.mem x) :
    HeapOk E m1 used' { s with mem := m', freeList := fl' } := by
  have hrole : ∀ pn q, kernelRoles E pn = some q → ∀ x, pn * 4096 ≤ x →
      x < pn * 4096 + 4096 → m' x = s.mem x :=
    fun pn q hq x h1 h2 => hout x (h.noRole.outside hinv hq h1 h2)
  exact ⟨⟨free', hinv⟩, hkept, h.tables.congr fun pn q hq _ => hrole pn q hq,
    h.kernel.congr h.tables fun pn q hq _ => hrole pn q hq, h.noRole⟩

/-- `extend_heap` finds no page: the table of pages is full, or
`page_alloc` fails. -/
def NoPage (pageAlloc : KM Nat) (s : KState) : Prop :=
  1024 ≤ s.heapPages.length ∨ (pageAlloc s).1 = .ok 0

/-- What `extend_heap` does to the heap: nothing, or one more page, whose
block is the first of the free list. -/
def Extended (pageAlloc : KM Nat) (s s' : KState) : Prop :=
  (NoPage pageAlloc s
      ∧ (s.heapPages.length < 1024 → pageAlloc s = (.ok 0, s'))
      ∧ s'.mem = s.mem ∧ s'.freeList = s.freeList ∧ s'.heapPages = s.heapPages)
    ∨ (¬ NoPage pageAlloc s
      ∧ ∃ p free, s'.heapPages = s.heapPages ++ [p]
        ∧ Listed s free ∧ Listed s' (⟨p, 4080⟩ :: free))

/-- `extend_heap` returns, and keeps the heap. -/
theorem HeapOk.extend (hsrc : PageSource E pageAlloc) (h : HeapOk E m₀ used s) :
    ∃ s', extendHeap E pageAlloc s = (.ok (), s') ∧ HeapOk E m₀ used s'
      ∧ Extended pageAlloc s s' := by
  obtain ⟨p, s₁, halloc, hfresh, hpages, hfl, hmem⟩ := hsrc s
  obtain ⟨free, hinv⟩ := h.heap
  by_cases hlen : 1024 ≤ s.heapPages.length
  · refine ⟨s, ?_, h, .inl ⟨.inl hlen, fun hlt => absurd hlen (by omega), rfl, rfl, rfl⟩⟩
    unfold extendHeap
    rw [get_bind, if_pos hlen]
    rfl
  -- a page from `page_alloc` is neither one of the heap nor a table
  have hheap : ∀ x, InPages s.heapPages x → s₁.mem x = s.mem x := by
    rintro x ⟨q, hq, h1, h2⟩
    refine hmem x (hfresh.imp_right fun ⟨hal, _, _, hnew, _⟩ => ?_)
    have hqp : q ≠ p := fun hqp => hnew (hqp ▸ hq)
    have := hinv.page q hq
    omega
  have hrole : ∀ pn q, kernelRoles E pn = some q → q.level < 3 → ∀ x, pn * 4096 ≤ x →
      x < pn * 4096 + 4096 → s₁.mem x = s.mem x := by
    intro pn q hq _ x h1 h2
    refine hmem x (hfresh.imp_right fun ⟨hal, _, _, _, hk⟩ => ?_)
    have := role_ne (kernelRoles_none hal hk) hq
    omega
  have hinv1 : HeapInv s₁.mem s₁.freeList s₁.heapPages free used := by
    rw [hfl, hpages]
    exact hinv.frame_pages hheap
  have h₁ : HeapOk E m₀ used s₁ := by
    refine ⟨⟨free, hinv1⟩, fun u hu x hx => ?_, h.tables.congr hrole,
      h.kernel.congr h.tables hrole, fun q hq => h.noRole q (hpages ▸ hq)⟩
    rw [hheap x (hinv.tiles.mem (List.mem_append_right _ hu) hx)]
    exact h.kept u hu x hx
  by_cases hp0 : p = 0
  · -- the page source failed, and changed nothing of the heap
    have hfail : pageAlloc s = (.ok 0, s₁) := hp0 ▸ halloc
    have hm : s₁.mem = s.mem := funext fun x => hmem x (.inl hp0)
    refine ⟨s₁, ?_, h₁,
      .inl ⟨.inr (congrArg Prod.fst hfail), fun _ => hfail, hm, hfl, hpages⟩⟩
    unfold extendHeap
    rw [get_bind, if_neg hlen, bind_of_ok halloc, if_pos hp0]
    rfl
  obtain ⟨hal, hlo, hhi, hnew, hk⟩ := hfresh.resolve_left hp0
  have hnone := kernelRoles_none hal hk
  obtain ⟨hpush, ht, hkt, hbare, -, hin⟩ := hinv1.grown h₁.tables h₁.kernel h₁.noRole
    ⟨hal, hlo, hhi⟩ hnone (hpages ▸ hnew)
  refine ⟨_, extendHeap_eq (by omega) halloc hp0 hal hhi h₁.tables h₁.kernel hnone,
    ⟨⟨_, hpush⟩, fun u hu x hx => ?_, ht, hkt, hbare⟩,
    .inr ⟨?_, p, free, congrArg (· ++ [p]) hpages, hinv.listed, hpush.listed⟩⟩
  · rw [hin x (hinv1.tiles.mem (List.mem_append_right _ hu) hx)]
    exact h₁.kept u hu x hx
  · rintro (hfull | hfail)
    · exact hlen hfull
    · rw [halloc] at hfail
      exact hp0 (Except.ok.inj hfail)

theorem extendHeap_ok (hsrc : PageSource E pageAlloc) :
    Triple (HeapOk E m₀ used) (extendHeap E pageAlloc)
      (fun _ => HeapOk E m₀ used) (fun _ _ => True) := by
  intro s h
  obtain ⟨s', hrun, hok, -⟩ := h.extend hsrc
  refine ⟨fun u s'' hrun' => ?_, fun _ _ _ => trivial⟩
  rw [hrun] at hrun'
  cases hrun'
  exact hok

/-- What taking a block establishes. -/
def Taken (E : KEnv) (m₀ : ByteMap) (used : List Blk) (size p : Nat)
    (s : KState) : Prop :=
  ∃ h k, p = h + 16 ∧ size ≤ k ∧ (∀ x, x < k → s.mem (p + x) = 0)
    ∧ (∀ u ∈ used, ∀ x, u.Has x → s.mem x = m₀ x)
    ∧ HeapOk E s.mem (⟨h, k⟩ :: used) s

theorem takeBlock_ok {size fuel prev cur : _} (hs0 : size ≠ 0) (h : HeapOk E m₀ used s)
    (hf : findFit s.mem (alignSize (size + 16)) fuel .head s.freeList
      = some (some (prev, cur))) :
    Taken E m₀ used size (cur + 16) (takeBlock (alignSize (size + 16)) prev cur s) := by
  obtain ⟨free, hinv⟩ := h.heap
  obtain ⟨m', fl', free', k, heq, hinv', hk, hzero, hused, hin⟩ := hinv.takeBlock hs0 hf
  rw [heq]
  exact ⟨cur, k, rfl, hk, hzero,
    fun u hu x hx => (hused u hu x hx).trans (h.kept u hu x hx),
    h.of_inside hinv' (fun _ _ _ _ => rfl) hin⟩

/-- A `kernel_malloc` that returns. -/
theorem kernelMalloc_ok {s' : KState}
    (hsrc : PageSource E pageAlloc) (h : HeapOk E m₀ used s)
    (hrun : kernelMalloc E pageAlloc fuel size s = (.ok p, s')) :
    (p = 0 ∧ HeapOk E m₀ used s') ∨ Taken E m₀ used size p s' := by
  unfold kernelMalloc at hrun
  by_cases hsz : size = 0 ∨ 4080 < size
  · rw [if_pos hsz] at hrun
    cases hrun
    exact .inl ⟨rfl, h⟩
  · rw [if_neg hsz] at hrun
    refine (mallocLoop_triple (J := HeapOk E m₀ used)
      (Q := fun p s' => (p = 0 ∧ HeapOk E m₀ used s')
        ∨ Taken E m₀ used size p s')
      (extendHeap_ok hsrc) (fun s fuel prev cur hs hf => .inr ?_)
      (fun s hs _ => .inl ⟨rfl, hs⟩) (fun _ _ => trivial) fuel s h).1
      p s' hrun
    exact takeBlock_ok (fun h0 => hsz (.inl h0)) hs hf

end Steps

-- ==== runs

/-- The blocks of the live pointers, with the sizes in their headers. -/
def liveBlocks (m : ByteMap) (live : List (Nat × Nat)) : List Blk :=
  live.map fun x => ⟨x.1 - 16, blockSize m (x.1 - 16)⟩

/-- One step of the heap and its clients. -/
inductive HeapStep (E : KEnv) :
    KState × List (Nat × Nat) → KState × List (Nat × Nat) → Prop
  /-- `kernel_malloc(size)` returns `p`. -/
  | malloc {s s' live pageAlloc fuel size p} (hsrc : PageSource E pageAlloc)
      (hrun : kernelMalloc E pageAlloc fuel size s = (.ok p, s')) :
      HeapStep E (s, live) (s', if p = 0 then live else (p, size) :: live)
  /-- `kernel_free(p)` for `NULL` or a live pointer. -/
  | free {s s' live fuel p} (hp : p = 0 ∨ p ∈ live.map Prod.fst)
      (hrun : kernelFree fuel p s = (.ok (), s')) :
      HeapStep E (s, live) (s', live.filter fun x => x.1 ≠ p)
  /-- A client writes one byte of its block. -/
  | write {s live p n x v} (hp : (p, n) ∈ live) (h1 : p ≤ x)
      (h2 : x < p + blockSize s.mem (p - 16)) :
      HeapStep E (s, live) ({ s with mem := store s.mem x 1 v }, live)

/-- The states a run reaches from the kernel's initial heap. -/
def HeapRun (E : KEnv) (s : KState) (live : List (Nat × Nat)) : Prop :=
  ∃ s₀, s₀.heapPages = [] ∧ s₀.freeList = 0
    ∧ Relation.ReflTransGen (HeapStep E) ((virtualMemoryInit E s₀).2, []) (s, live)

/-- What holds along a run. -/
def LiveOk (E : KEnv) (x : KState × List (Nat × Nat)) : Prop :=
  HeapOk E x.1.mem (liveBlocks x.1.mem x.2) x.1
    ∧ ∀ y ∈ x.2, y.2 ≤ blockSize x.1.mem (y.1 - 16)

/-- Live blocks keep their sizes as long as they are used blocks. -/
theorem blockSize_live (rest : List Blk)
    (h : HeapInv m' fl pages free (rest ++ liveBlocks m live)) :
    ∀ x ∈ live, blockSize m' (x.1 - 16) = blockSize m (x.1 - 16) :=
  fun x hx => (h.header ⟨x.1 - 16, blockSize m (x.1 - 16)⟩
    (List.mem_append_right _ (List.mem_map.mpr ⟨x, hx, rfl⟩))).1

theorem liveBlocks_congr
    (h : ∀ x ∈ live, blockSize m' (x.1 - 16) = blockSize m (x.1 - 16)) :
    liveBlocks m' live = liveBlocks m live :=
  List.map_congr_left fun x hx => by rw [h x hx]

theorem HeapOk.now {m₀ : ByteMap} {s : KState}
    (h : HeapOk E m₀ used s) : HeapOk E s.mem used s :=
  ⟨h.heap, fun _ _ _ _ => rfl, h.tables, h.kernel, h.noRole⟩

theorem HeapInv.perm_used (h : HeapInv m fl pages free used)
    (hp : used.Perm used') : HeapInv m fl pages free used' := by
  have hall := hp.append_left free
  exact ⟨h.seg, fun b hb => h.header b (hp.mem_iff.mpr hb),
    fun b hb => h.align b (hall.mem_iff.mpr hb), h.page, h.tiles.perm hall⟩

section Run

variable {s' : KState}

/-- A live pointer points behind the header of a used block. -/
theorem LiveOk.pointer (h : LiveOk E (s, live)) {x : Nat × Nat}
    (hx : x ∈ live) : 4112 ≤ x.1 ∧ x.1 % 16 = 0 := by
  obtain ⟨free, hinv⟩ := h.1.heap
  have hmem : (⟨x.1 - 16, blockSize s.mem (x.1 - 16)⟩ : Blk)
      ∈ free ++ liveBlocks s.mem live :=
    List.mem_append_right _ (List.mem_map.mpr ⟨x, hx, rfl⟩)
  have h1 := hinv.bounds hmem
  have h2 := (hinv.align _ hmem).1
  dsimp only at h1 h2
  omega

theorem LiveOk.malloc (hsrc : PageSource E pageAlloc) (h : LiveOk E (s, live))
    (hrun : kernelMalloc E pageAlloc fuel size s = (.ok p, s')) :
    LiveOk E (s', if p = 0 then live else (p, size) :: live) := by
  rcases kernelMalloc_ok hsrc h.1 hrun with ⟨rfl, hok⟩ | ⟨a, k, rfl, hsz, -, -, hok⟩
  · obtain ⟨free, hinv⟩ := hok.heap
    have hsize := blockSize_live [] hinv
    rw [if_pos rfl]
    refine ⟨?_, fun y hy => ?_⟩
    · dsimp only
      rw [liveBlocks_congr hsize]
      exact hok.now
    · exact (hsize y hy).symm ▸ h.2 y hy
  · obtain ⟨free, hinv⟩ := hok.heap
    have hsize := blockSize_live [⟨a, k⟩] hinv
    have hnew : blockSize s'.mem (a + 16 - 16) = k :=
      (hinv.header ⟨a, k⟩ (.head _)).1
    rw [if_neg (by omega)]
    refine ⟨?_, fun y hy => ?_⟩
    · show HeapOk E s'.mem (⟨a + 16 - 16, blockSize s'.mem (a + 16 - 16)⟩
        :: liveBlocks s'.mem live) s'
      rw [liveBlocks_congr hsize, hnew]
      exact hok.now
    · rcases List.mem_cons.mp hy with rfl | hy
      · exact hnew.symm ▸ hsz
      · exact (hsize y hy).symm ▸ h.2 y hy

/-- The block of a live pointer, and the blocks of the others. -/
theorem LiveOk.split (h : LiveOk E (s, live))
    (hp : p ∈ live.map Prod.fst) (hm : m = s.mem) :
    (liveBlocks m live).Perm (⟨p - 16, blockSize m (p - 16)⟩
      :: liveBlocks m (live.filter fun x => x.1 ≠ p)) := by
  subst hm
  obtain ⟨x, hx, rfl⟩ := List.mem_map.mp hp
  obtain ⟨l1, l2, rfl⟩ := List.append_of_mem hx
  obtain ⟨free, hinv⟩ := h.1.heap
  have hperm : (liveBlocks s.mem (l1 ++ x :: l2)).Perm
      (⟨x.1 - 16, blockSize s.mem (x.1 - 16)⟩ :: liveBlocks s.mem (l1 ++ l2)) := by
    unfold liveBlocks
    rw [List.map_append, List.map_append, List.map_cons]
    exact List.perm_middle
  -- blocks of one header would overlap, so no other pointer is the same
  have hother : ∀ y ∈ l1 ++ l2, y.1 ≠ x.1 := by
    intro y hy heq
    have hap := (List.pairwise_cons.mp ((List.pairwise_append.mp
      ((hinv.perm_used hperm).tiles.apart)).2.1)).1
      ⟨y.1 - 16, blockSize s.mem (y.1 - 16)⟩ (List.mem_map.mpr ⟨y, hy, rfl⟩)
    rw [heq] at hap
    unfold Tiling.Apart Blk.len at hap
    dsimp only at hap
    omega
  have hfilter : (l1 ++ x :: l2).filter (fun y => decide (y.1 ≠ x.1))
      = l1 ++ l2 := by
    have hid : ∀ l : List (Nat × Nat), (∀ y ∈ l, y.1 ≠ x.1) →
        l.filter (fun y => decide (y.1 ≠ x.1)) = l := fun l hl =>
      List.filter_eq_self.mpr fun y hy => decide_eq_true (hl y hy)
    rw [List.filter_append, List.filter_cons_of_neg (by simp),
      hid l1 fun y hy => hother y (List.mem_append_left _ hy),
      hid l2 fun y hy => hother y (List.mem_append_right _ hy)]
  rw [hfilter]
  exact hperm

theorem kernelFree_null (fuel : Nat) : kernelFree fuel 0 s = (.ok (), s) := by
  unfold kernelFree
  rw [get_bind, if_pos (.inl rfl)]
  rfl

/-- What `kernel_free` of a live pointer does: its block comes first in
the list, joined with the blocks behind it. -/
theorem LiveOk.freed (h : LiveOk E (s, live))
    (hinv : HeapInv s.mem s.freeList s.heapPages free (liveBlocks s.mem live))
    (hp : p ∈ live.map Prod.fst) (hrun : kernelFree fuel p s = (.ok (), s')) :
    ∃ m', s' = { s with mem := m', freeList := p - 16 }
      ∧ HeapInv m' (p - 16) s.heapPages (joinFrom ⟨p - 16, blockSize s.mem (p - 16)⟩ free)
          (liveBlocks s.mem (live.filter fun x => x.1 ≠ p))
      ∧ ∀ x, ¬ InPages s.heapPages x → m' x = s.mem x := by
  obtain ⟨y, hy, hyp⟩ := List.mem_map.mp hp
  have hlo := h.pointer hy
  have hinv' := hinv.perm_used (h.split hp rfl)
  have hp16 : p = (⟨p - 16, blockSize s.mem (p - 16)⟩ : Blk).h + 16 := by
    show p = p - 16 + 16
    omega
  rw [hp16] at hrun
  rcases hinv'.kernelFree fuel with ⟨hbad, -⟩ | ⟨m', heq, hi, hout⟩
  · rw [hbad] at hrun
    cases hrun
  · rw [heq] at hrun
    cases hrun
    refine ⟨m', rfl, hi, fun x hx => hout x fun b hb hbx => hx (hinv'.tiles.mem ?_ hbx)⟩
    rcases List.mem_cons.mp hb with rfl | hb
    · exact List.mem_append_right _ (.head _)
    · exact List.mem_append_left _ hb

theorem LiveOk.frees (h : LiveOk E (s, live)) (hp : p = 0 ∨ p ∈ live.map Prod.fst)
    (hrun : kernelFree fuel p s = (.ok (), s')) :
    LiveOk E (s', live.filter fun x => x.1 ≠ p) := by
  by_cases hp0 : p = 0
  · subst hp0
    rw [kernelFree_null] at hrun
    cases hrun
    rw [List.filter_eq_self.mpr fun x hx => decide_eq_true ?_]
    · exact h
    · have := h.pointer hx
      omega
  obtain ⟨free, hinv⟩ := h.1.heap
  obtain ⟨m', rfl, hi, hout⟩ := h.freed hinv (hp.resolve_left hp0) hrun
  have hsize := blockSize_live [] hi
  refine ⟨?_, fun z hz => ?_⟩
  · dsimp only
    rw [liveBlocks_congr hsize]
    exact h.1.of_inside hi (fun _ _ _ _ => rfl) hout
  · exact (hsize z hz).symm ▸ h.2 z (List.mem_of_mem_filter hz)

/-- A client's write misses every header. -/
theorem LiveOk.write {n v : Nat} (h : LiveOk E (s, live))
    (hp : (p, n) ∈ live) (h1 : p ≤ x) (h2 : x < p + blockSize s.mem (p - 16)) :
    LiveOk E ({ s with mem := store s.mem x 1 v }, live) := by
  have hlo := h.pointer hp
  obtain ⟨free, hinv⟩ := h.1.heap
  have hperm := h.split (List.mem_map.mpr ⟨(p, n), hp, rfl⟩) rfl
  have hap := ((hinv.perm_used hperm).tiles.perm List.perm_middle).apart
  rw [List.pairwise_cons] at hap
  have hkeep : ∀ b ∈ free ++ liveBlocks s.mem live, ∀ y, b.h ≤ y →
      y < b.h + 16 → store s.mem x 1 v y = s.mem y := by
    intro b hb y hy1 hy2
    refine store_of_not_mem ?_
    have hb' := ((hperm.append_left free).trans List.perm_middle).mem_iff.mp hb
    rcases List.mem_cons.mp hb' with rfl | hb'
    · dsimp only at hy1 hy2
      omega
    · have := Blk.Apart.header (hap.1 b hb') hy1 hy2
      rw [Blk.has_iff] at this
      dsimp only at this
      omega
  have hi := hinv.frame hkeep
  have hsize := blockSize_live [] hi
  refine ⟨?_, fun z hz => (hsize z hz).symm ▸ h.2 z hz⟩
  dsimp only
  rw [liveBlocks_congr hsize]
  refine h.1.of_inside hi (fun _ _ _ _ => rfl) fun y hy => ?_
  refine store_of_not_mem fun hxy => hy ?_
  refine (hinv.perm_used hperm).tiles.mem
    (List.mem_append_right _ (.head _)) (Blk.has_iff.mpr ?_)
  dsimp only
  omega

/-- One step of the heap and its clients keeps the invariant. -/
theorem LiveOk.step {x y : KState × List (Nat × Nat)} (h : LiveOk E x)
    (hs : HeapStep E x y) : LiveOk E y := by
  cases hs with
  | malloc hsrc hrun => exact h.malloc hsrc hrun
  | free hp hrun => exact h.frees hp hrun
  | write hp h1 h2 => exact h.write hp h1 h2

/-- The heap the kernel starts with is empty. -/
theorem LiveOk.start {s0 : KState} (hp : s0.heapPages = []) (hf : s0.freeList = 0) :
    LiveOk E ((virtualMemoryInit E s0).2, []) := by
  obtain ⟨m', hrun, ht, hk, -, -⟩ := virtualMemoryInit_spec (E := E) s0
  rw [hrun]
  refine ⟨⟨⟨[], ?_⟩, fun u hu => ?_, ht, hk, fun p hmem => ?_⟩, fun y hy => ?_⟩
  · show HeapInv m' s0.freeList s0.heapPages [] []
    rw [hp, hf]
    exact HeapInv.empty m'
  · cases hu
  · have hmem : p ∈ s0.heapPages := hmem
    rw [hp] at hmem
    cases hmem
  · cases hy

theorem HeapRun.liveOk (h : HeapRun E s live) : LiveOk E (s, live) := by
  obtain ⟨s0, hp, hf, hrun⟩ := h
  generalize (s, live) = y at hrun ⊢
  induction hrun with
  | refl => exact LiveOk.start hp hf
  | tail _ hs ih => exact ih.step hs

theorem HeapRun.heapOk (h : HeapRun E s live) :
    HeapOk E s.mem (liveBlocks s.mem live) s := h.liveOk.1

/-- In every state of every run, the free list is a finite list of
distinct blocks that ends at `NULL`, and the free and the live blocks
partition the pages of the heap into intervals `[h, h + 16 + size)` with
`h` a multiple of 16. Live blocks are disjoint, aligned, and as large as
asked for; what `kernel_malloc` returns next is so too, and all zero;
and `kernel_free` of a live pointer returns. -/
theorem heap_run_partition (h : HeapRun E s live) :
    (∃ free, Seg s.mem free s.freeList 0 ∧ (free.map Blk.h).Nodup
        ∧ (∀ b ∈ free ++ liveBlocks s.mem live, b.h % 16 = 0)
        ∧ Tiles Blk.h Blk.len (InPages s.heapPages) (free ++ liveBlocks s.mem live))
      ∧ (liveBlocks s.mem live).Pairwise (fun b c => ∀ x, b.Has x → ¬ c.Has x)
      ∧ (∀ x ∈ live, x.1 % 16 = 0 ∧ x.2 ≤ blockSize s.mem (x.1 - 16))
      ∧ (∀ pageAlloc fuel size p s', PageSource E pageAlloc →
          kernelMalloc E pageAlloc fuel size s = (.ok p, s') → p ≠ 0 →
          p % 16 = 0 ∧ size ≤ blockSize s'.mem (p - 16)
            ∧ ∀ i, i < blockSize s'.mem (p - 16) → s'.mem (p + i) = 0)
      ∧ ∀ x ∈ live, ∃ fuel, (kernelFree fuel x.1 s).1 = .ok () := by
  have hok := h.liveOk
  obtain ⟨free, hinv⟩ := hok.1.heap
  have hap := List.pairwise_append.mp hinv.tiles.apart
  refine ⟨⟨free, hinv.seg, ?_, fun b hb => (hinv.align b hb).1, hinv.tiles⟩,
    ?_, fun x hx => ⟨(hok.pointer hx).2, hok.2 x hx⟩, ?_, fun x hx => ?_⟩
  · refine List.pairwise_map.mpr (hap.1.imp fun {b c} hbc heq => ?_)
    unfold Tiling.Apart Blk.len at hbc
    omega
  · exact hap.2.1.imp fun {b c} hbc x hb hc => hbc.not_inside hb hc
  · intro pageAlloc fuel size p s' hsrc hrun hp0
    rcases kernelMalloc_ok hsrc hok.1 hrun with ⟨h0, -⟩ | ⟨a, k, rfl, hsz, hzero, -, hok'⟩
    · exact absurd h0 hp0
    · obtain ⟨free', hinv'⟩ := hok'.heap
      have hal := (hinv'.align ⟨a, k⟩ (List.mem_append_right _ (List.mem_cons_self ..))).1
      have hk : blockSize s'.mem (a + 16 - 16) = k :=
        (hinv'.header ⟨a, k⟩ (List.mem_cons_self ..)).1
      rw [hk]
      exact ⟨by dsimp only at hal; omega, hsz, hzero⟩
  · -- fuel for the whole list is enough
    have hlo := hok.pointer hx
    have hinv' := hinv.perm_used (hok.split (List.mem_map.mpr ⟨x, hx, rfl⟩) rfl)
    refine ⟨free.length + 2, ?_⟩
    have hp16 : x.1 = (⟨x.1 - 16, blockSize s.mem (x.1 - 16)⟩ : Blk).h + 16 := by
      show x.1 = x.1 - 16 + 16
      omega
    rw [hp16]
    rcases hinv'.kernelFree (free.length + 2) with ⟨-, hlt⟩ | ⟨m', heq, -, -⟩
    · omega
    · rw [heq]

end Run

/-- A source of one page. -/
def onePage : KM Nat := fun s =>
  (.ok (if 0x1000 ∈ s.heapPages then 0 else 0x1000), s)

theorem onePage_source : PageSource plainKEnv onePage := by
  intro s
  refine ⟨_, s, rfl, ?_, rfl, rfl, fun _ _ => rfl⟩
  by_cases h : 0x1000 ∈ s.heapPages
  · exact .inl (if_pos h)
  · rw [if_neg h]
    exact .inr ⟨by decide, by decide, by decide, h, by decide⟩

/-- The heap after `kernel_malloc(100)` and `kernel_malloc(24)`. -/
def twoBlocks : KState :=
  (kernelMalloc plainKEnv onePage 3 24
    (kernelMalloc plainKEnv onePage 3 100 (virtualMemoryInit plainKEnv blank).2).2).2

theorem twoBlocks_run : HeapRun plainKEnv twoBlocks [(0x1090, 24), (0x1010, 100)] := by
  refine ⟨blank, rfl, rfl, ?_⟩
  have h1 := eq_of_toOption (a := 0x1010) (x := kernelMalloc plainKEnv onePage 3 100)
    (s := (virtualMemoryInit plainKEnv blank).2) (by decide +kernel)
  have h2 := eq_of_toOption (a := 0x1090) (x := kernelMalloc plainKEnv onePage 3 24)
    (s := (kernelMalloc plainKEnv onePage 3 100
      (virtualMemoryInit plainKEnv blank).2).2) (by decide +kernel)
  exact (Relation.ReflTransGen.single (HeapStep.malloc onePage_source h1)).tail
    (HeapStep.malloc onePage_source h2)

theorem heap_run_partition_twoBlocks :
    ∃ free, Seg twoBlocks.mem free twoBlocks.freeList 0
      ∧ Tiles Blk.h Blk.len (InPages twoBlocks.heapPages)
          (free ++ liveBlocks twoBlocks.mem [(0x1090, 24), (0x1010, 100)]) := by
  obtain ⟨⟨free, hseg, -, -, ht⟩, -⟩ := heap_run_partition twoBlocks_run
  exact ⟨free, hseg, ht⟩

end RojocOS.Kernel
