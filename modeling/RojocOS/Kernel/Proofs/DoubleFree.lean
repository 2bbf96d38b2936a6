/-
Freeing a pointer twice.

`kernel_free` takes a block for freed when its `next` field is not `NULL`.
That is a guess: the last block of the free list has `next = NULL` too,
and so has a header that was swallowed by a merge while its block was the
last, or that lies in the zeroed data of a block handed out since. In all
these cases the second `kernel_free` goes ahead (`double_free_harmless_iff`).
What it then does depends on the list: a block that is its only element is
linked to itself, and the coalescing loop never ends; any other address
becomes the new head.
-/
import RojocOS.Kernel.Proofs.Coalescing

namespace RojocOS.Kernel

open ByteMap Tiling Prog

variable {E : KEnv} {s s' : KState} {live live' : List (Nat × Nat)} {b fuel p size : Nat}
  {m m0 : ByteMap} {pageAlloc : KM Nat} {used : List Blk}

-- ==== freed pointers

/-- The heap never gives a page back. -/
theorem HeapOk.malloc_pages (hsrc : PageSource E pageAlloc) (h : HeapOk E m0 used s)
    (hrun : kernelMalloc E pageAlloc fuel size s = (.ok p, s')) :
    s.heapPages ⊆ s'.heapPages := by
  by_cases hsz : size = 0 ∨ 4080 < size
  · rw [kernelMalloc_refused fuel hsz] at hrun
    cases hrun
    exact List.Subset.refl _
  rw [kernelMalloc_loop fuel hsz] at hrun
  refine (mallocLoop_triple (J := fun t => HeapOk E m0 used t ∧ s.heapPages ⊆ t.heapPages)
    (Q := fun _ t => s.heapPages ⊆ t.heapPages) (F := fun _ _ => True)
    (fun t ht => ?_) (fun t fuel prev cur ht _ => ?_) (fun t ht _ => ht.2) (fun _ _ => trivial)
    fuel s ⟨h, List.Subset.refl _⟩).1 p s' hrun
  · obtain ⟨t', hext, hok, hcase⟩ := ht.1.extend hsrc
    refine ⟨fun u t'' hrun' => ?_, fun _ _ _ => trivial⟩
    rw [hext] at hrun'
    cases hrun'
    refine ⟨hok, ?_⟩
    rcases hcase with ⟨-, -, -, -, hpages⟩ | ⟨-, q, free, hpages, -⟩
    · rw [hpages]
      exact ht.2
    · rw [hpages]
      exact List.subset_append_of_subset_left _ ht.2
  · rw [(takeBlock_same _ prev cur t).1]
    exact ht.2

theorem LiveOk.step_pages (h : LiveOk E (s, live)) (hs : HeapStep E (s, live) (s', live')) :
    s.heapPages ⊆ s'.heapPages := by
  cases hs with
  | malloc hsrc hrun => exact h.1.malloc_pages hsrc hrun
  | free hp hrun =>
    rcases hp with rfl | hp
    · rw [kernelFree_null] at hrun
      cases hrun
      exact List.Subset.refl _
    · obtain ⟨free, hinv⟩ := h.1.heap
      obtain ⟨m', rfl, -⟩ := h.freed hinv hp hrun
      exact List.Subset.refl _
  | write => exact List.Subset.refl _

/-- A pointer that was live earlier in the run, and is not live now: it
was freed, and not handed out again. -/
def Freed (E : KEnv) (s : KState) (live : List (Nat × Nat)) (p : Nat) : Prop :=
  p ∉ live.map Prod.fst
    ∧ ∃ s₁ live₁, HeapRun E s₁ live₁ ∧ p ∈ live₁.map Prod.fst
      ∧ Relation.ReflTransGen (HeapStep E) (s₁, live₁) (s, live)

theorem Freed.run (h : Freed E s live p) : HeapRun E s live := by
  obtain ⟨-, s1, live1, ⟨s0, hp, hf, hrun⟩, -, hrest⟩ := h
  exact ⟨s0, hp, hf, hrun.trans hrest⟩

/-- The header in front of it is still in the heap. -/
theorem Freed.in_pages (h : Freed E s live p) :
    4112 ≤ p ∧ InPages s.heapPages (p - 16) := by
  obtain ⟨-, s1, live1, hrun, hp, hrest⟩ := h
  obtain ⟨x, hx, rfl⟩ := List.mem_map.mp hp
  have hok := hrun.liveOk
  refine ⟨(hok.pointer hx).1, ?_⟩
  have hpages : ∀ y : KState × List (Nat × Nat),
      Relation.ReflTransGen (HeapStep E) (s1, live1) y →
      LiveOk E y ∧ s1.heapPages ⊆ y.1.heapPages := by
    intro y hy
    induction hy with
    | refl => exact ⟨hok, List.Subset.refl _⟩
    | tail _ hs ih => exact ⟨ih.1.step hs, List.Subset.trans ih.2 (ih.1.step_pages hs)⟩
  obtain ⟨free, hinv⟩ := hok.1.heap
  have hmem : (⟨x.1 - 16, blockSize s1.mem (x.1 - 16)⟩ : Blk) ∈ free ++ liveBlocks s1.mem live1 :=
    List.mem_append_right _ (List.mem_map.mpr ⟨x, hx, rfl⟩)
  obtain ⟨q, hq, h1, h2⟩ := hinv.tiles.mem hmem
    (Blk.has_iff.mpr ⟨Nat.le_refl _, by dsimp only; omega⟩)
  exact ⟨q, (hpages _ hrest).2 hq, h1, h2⟩

-- ==== the second free

theorem u64_back (hlo : 4112 ≤ p) (hhi : p < 0x200010) :
    u64 (p + (2 ^ 64 - 16)) = p - 16 := by
  unfold u64
  omega

/-- The walk from a block that is its own successor. -/
theorem coalesce_self (h0 : b ≠ 0) (hn : blockNext m b = b)
    (hs : u64 (b + 16 + blockSize m b) ≠ b) : ∀ fuel, coalesce fuel b m = none := by
  intro fuel
  induction fuel with
  | zero => rfl
  | succ fuel ih =>
    rw [coalesce, if_neg h0]
    rw [hn, if_neg fun h => hs h.2]
    exact ih

/-- A pointer into the heap whose header has `next = NULL` is accepted. -/
theorem kernelFree_accepts (hlo : 4112 ≤ p) (hhi : p < 0x200010)
    (hin : InPages s.heapPages (p - 16)) (hnext : blockNext s.mem (p - 16) = 0) (fuel : Nat) :
    kernelFree fuel p s
      = match coalesce fuel (p - 16) (store (fill s.mem p (blockSize s.mem (p - 16)) 0)
          (p - 16 + 8) 8 s.freeList) with
        | none => (.error .hang, s)
        | some m => (.ok (), { s with mem := m, freeList := p - 16 }) := by
  have hvalid : validBlock s (p - 16) = true := by
    obtain ⟨q, hq, h1, h2⟩ := hin
    exact List.any_eq_true.mpr ⟨q, hq, by simp [h1, h2]⟩
  unfold kernelFree
  rw [get_bind]
  rw [u64_back hlo hhi, if_neg ?_]
  · cases coalesce fuel (p - 16) (store (fill s.mem p (blockSize s.mem (p - 16)) 0)
      (p - 16 + 8) 8 s.freeList) <;> rfl
  · rintro (h0 | hbad | hbad)
    · omega
    · exact hbad hvalid
    · exact hbad hnext

/-- If it is the head of the list, it is linked to itself. -/
theorem kernelFree_head (hlo : 4112 ≤ p) (hhi : p < 0x200010)
    (hin : InPages s.heapPages (p - 16)) (hnext : blockNext s.mem (p - 16) = 0)
    (hhead : s.freeList = p - 16) (hsz : blockSize s.mem (p - 16) ≤ 0x200000) (fuel : Nat) :
    kernelFree fuel p s = (.error .hang, s) := by
  have hnone := coalesce_self (b := p - 16) (m := store (fill s.mem p
    (blockSize s.mem (p - 16)) 0) (p - 16 + 8) 8 (p - 16)) (by omega) ?_ ?_ fuel
  · rw [kernelFree_accepts hlo hhi hin hnext fuel, hhead, hnone]
  · exact load_store_of_lt (by omega)
  · have hsize : blockSize (store (fill s.mem p (blockSize s.mem (p - 16)) 0)
        (p - 16 + 8) 8 (p - 16)) (p - 16) = blockSize s.mem (p - 16) :=
      (load_store_of_disjoint (by omega)).trans (load_fill_of_disjoint (by omega))
    rw [hsize, u64_of_lt (by omega)]
    omega

/-- `kernel_free(p)` returns, and leaves the free list and the headers of
all blocks. -/
def Harmless (s : KState) (live : List (Nat × Nat)) (p : Nat) : Prop :=
  ∃ fuel s', kernelFree fuel p s = (.ok (), s') ∧ s'.freeList = s.freeList
    ∧ ∀ free, Listed s free → ∀ b ∈ free ++ liveBlocks s.mem live,
        blockSize s'.mem b.h = blockSize s.mem b.h ∧ blockNext s'.mem b.h = blockNext s.mem b.h

/-- A second `kernel_free` is harmless just if the `next` field in front of
the pointer is not `NULL`. -/
theorem double_free_harmless_iff {p : Nat} (h : Freed E s live p) :
    Harmless s live p ↔ blockNext s.mem (p - 16) ≠ 0 := by
  obtain ⟨hlo, hin⟩ := h.in_pages
  obtain ⟨free, hinv⟩ := h.run.heapOk.heap
  have hhi : p < 0x200010 := by
    have := InPages.low hinv.page hin
    omega
  constructor
  · rintro ⟨fuel, s', hrun, hfl, -⟩ hnext
    -- the block is the new head, so it was the head before
    have hhead : s.freeList = p - 16 := by
      rw [kernelFree_accepts hlo hhi hin hnext] at hrun
      split at hrun
      · cases hrun
      · cases hrun
        exact hfl.symm
    have hsz : blockSize s.mem (p - 16) ≤ 0x200000 := by
      cases free with
      | nil => exact absurd (hhead.symm.trans hinv.seg) (by omega)
      | cons b rest =>
          have hbounds := hinv.bounds (List.mem_append_left _ List.mem_cons_self)
          obtain ⟨hb, hsz, -⟩ := hinv.seg
          rw [← hhead, hb, hsz]
          omega
    rw [kernelFree_head hlo hhi hin hnext hhead hsz] at hrun
    cases hrun
  · intro hnext
    refine ⟨0, s, ?_, rfl, fun _ _ _ _ => ⟨rfl, rfl⟩⟩
    unfold kernelFree
    rw [get_bind]
    dsimp only
    rw [u64_back hlo hhi, if_pos (.inr (.inr hnext))]
    rfl

theorem freed_twoBlocks (hp : p ∈ [(0x1090, 24), (0x1010, 100)].map Prod.fst)
    (hrun : kernelFree 9 p twoBlocks = (.ok (), s)) :
    Freed plainKEnv s ([(0x1090, 24), (0x1010, 100)].filter fun x => x.1 ≠ p) p := by
  refine ⟨?_, twoBlocks, _, twoBlocks_run, hp,
    Relation.ReflTransGen.single (HeapStep.free (.inr hp) hrun)⟩
  intro hin
  obtain ⟨x, hx, rfl⟩ := List.mem_map.mp hin
  exact absurd rfl (of_decide_eq_true (List.mem_filter.mp hx).2)

/-- The first block of `twoBlocks`, freed twice. -/
theorem double_free_harmless_iff_first :
    Harmless (kernelFree 9 0x1010 twoBlocks).2 [(0x1090, 24)] 0x1010 :=
  (double_free_harmless_iff (freed_twoBlocks (by decide)
    (eq_of_toOption (a := ()) (by decide +kernel)))).mpr (by decide +kernel)

/-- The second one merges with the rest of the page when it is freed. To
free it again takes forever. -/
theorem double_free_hangs :
    Freed plainKEnv (kernelFree 9 0x1090 twoBlocks).2 [(0x1010, 100)] 0x1090
      ∧ ∀ fuel, (kernelFree fuel 0x1090 (kernelFree 9 0x1090 twoBlocks).2).1 = .error .hang := by
  refine ⟨freed_twoBlocks (by decide) (eq_of_toOption (a := ()) (by decide +kernel)),
    fun fuel => ?_⟩
  rw [kernelFree_head (by decide) (by decide) ?_ (by decide +kernel) (by decide +kernel)
    (by decide +kernel) fuel]
  exact ⟨0x1000, by decide +kernel, by decide, by decide⟩

end RojocOS.Kernel
