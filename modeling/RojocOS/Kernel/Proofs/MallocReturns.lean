/-
When `kernel_malloc` returns.

`kernel_malloc` calls itself again after every `extend_heap`, and stops
only when the free list is empty. So whether it returns is decided before
the first extension, by three things:

- a free block that is large enough;
- an empty list that no page is added to: the call returns `NULL`;
- a page that `page_alloc` gives, now or after it has failed for a while,
  and a request that fits into one page.

In the other cases the list is not empty and no later page helps: the
call goes on forever. The request fits when `size + 16`, rounded, is at
most the 4080 bytes of a page's block, so the sizes from 4065 to 4080 pass
the check of `kernel_malloc` and never fit.
-/
import RojocOS.Kernel.Proofs.HeapUse

namespace RojocOS.Kernel

open ByteMap Prog

variable {E : KEnv} {pageAlloc : KM Nat} {m₀ : ByteMap} {used : List Blk}
  {s s' : KState} {a cur p : Nat} {prev : Link}
variable {free : List Blk} {fuel size : Nat} {b : Blk}

-- ==== the search

/-- A free block is large enough. -/
def HasFit (s : KState) (a : Nat) : Prop := ∃ free, Listed s free ∧ ∃ b ∈ free, a ≤ b.size

theorem Listed.fits_iff (h : Listed s free) : HasFit s a ↔ ∃ b ∈ free, a ≤ b.size := by
  constructor
  · rintro ⟨free', h', hb⟩
    rw [h.unique h']
    exact hb
  · exact fun hb => ⟨free, h, hb⟩

theorem Listed.of_same (h : Listed s free) (hm : s'.mem = s.mem)
    (hf : s'.freeList = s.freeList) : Listed s' free := by
  unfold Listed
  rw [hm, hf]
  exact h

/-- The search answers whether a block fits, given a turn for every
block. -/
theorem HeapOk.search (h : HeapOk E m₀ used s) (a fuel : Nat) :
    (findFit s.mem a fuel .head s.freeList = none ∧ fuel ≤ 131072)
      ∨ (findFit s.mem a fuel .head s.freeList = some none ∧ ¬ HasFit s a)
      ∨ ∃ prev cur, findFit s.mem a fuel .head s.freeList = some (some (prev, cur))
        ∧ HasFit s a := by
  obtain ⟨free, hinv⟩ := h.heap
  have hlen := hinv.length_le
  rw [hinv.listed.fits_iff]
  rcases findFit_spec fuel hinv.seg hinv.head_ne
    with ⟨hf, hle⟩ | ⟨hf, hsmall⟩ | ⟨pre, b, post, rfl, hle, hf⟩
  · exact .inl ⟨hf, by omega⟩
  · exact .inr (.inl ⟨hf, fun ⟨b, hb, hle⟩ => absurd (hsmall b hb) (Nat.not_lt.mpr hle)⟩)
  · exact .inr (.inr ⟨_, _, hf, b, List.mem_append_right _ (.head _), hle⟩)

-- ==== one round

theorem mallocLoop_found
    (hf : findFit s.mem a (fuel + 1) .head s.freeList = some (some (prev, cur))) :
    mallocLoop E pageAlloc a (fuel + 1) s = (.ok (cur + 16), takeBlock a prev cur s) := by
  rw [mallocLoop, get_bind, hf]
  rfl

theorem mallocLoop_again (hf : findFit s.mem a (fuel + 1) .head s.freeList = some none)
    (hext : extendHeap E pageAlloc s = (.ok (), s')) :
    mallocLoop E pageAlloc a (fuel + 1) s
      = if s'.freeList = 0 then (.ok 0, s') else mallocLoop E pageAlloc a fuel s' := by
  rw [mallocLoop, get_bind, hf]
  dsimp only
  rw [bind_of_ok hext, get_bind]
  by_cases h0 : s'.freeList = 0
  · rw [if_pos h0, if_pos h0]
    rfl
  · rw [if_neg h0, if_neg h0]

/-- `page_alloc`, called again and again, gives a page. -/
inductive Obtains (pageAlloc : KM Nat) : KState → Prop
  | now {s s' : KState} {p : Nat} (hrun : pageAlloc s = (.ok p, s')) (hp : p ≠ 0) : Obtains pageAlloc s
  | later {s s' : KState} (hrun : pageAlloc s = (.ok 0, s')) (h : Obtains pageAlloc s') :
      Obtains pageAlloc s

theorem PageSource.obtains (hsrc : PageSource E pageAlloc) (h : ¬ NoPage pageAlloc s) :
    s.heapPages.length < 1024 ∧ Obtains pageAlloc s := by
  obtain ⟨p, s1, hrun, -⟩ := hsrc s
  constructor
  · by_contra hlt
    exact h (.inl (Nat.not_lt.mp hlt))
  · refine Obtains.now hrun fun hp => h (.inr ?_)
    rw [hrun, hp]

theorem Listed.head_ne (h : Listed s (b :: free)) : s.freeList ≠ 0 := by
  obtain ⟨⟨hb, -, -⟩, hne⟩ := h
  rw [hb]
  exact hne b (.head _)

theorem Listed.fits_cons (h : Listed s (b :: free)) :
    HasFit s a ↔ a ≤ b.size ∨ ∃ c ∈ free, a ≤ c.size := by
  rw [h.fits_iff]
  simp only [List.mem_cons, exists_eq_or_imp]

-- ==== needed

/-- A call that returns found a block, got a page large enough, or had no
block at all and got no page; only in the last case it returns `NULL`. -/
theorem mallocLoop_needs (hsrc : PageSource E pageAlloc) :
    ∀ fuel {s}, HeapOk E m₀ used s → mallocLoop E pageAlloc a fuel s = (.ok p, s') →
      (p ≠ 0 ∧ (HasFit s a ∨ (¬ (s.freeList = 0 ∧ NoPage pageAlloc s)
          ∧ a ≤ 4080 ∧ s.heapPages.length < 1024 ∧ Obtains pageAlloc s)))
        ∨ (p = 0 ∧ ¬ HasFit s a ∧ s.freeList = 0 ∧ NoPage pageAlloc s) := by
  intro fuel
  induction fuel with
  | zero => exact fun _ hrun => nomatch hrun
  | succ fuel ih =>
    intro s h hrun
    obtain ⟨free, hinv⟩ := h.heap
    rcases h.search a (fuel + 1) with ⟨hf, -⟩ | ⟨hf, hno⟩ | ⟨prev, cur, hf, hfit⟩
    · -- out of fuel in the search
      rw [mallocLoop, get_bind, hf] at hrun
      cases hrun
    · obtain ⟨s1, hext, h1, hcase⟩ := h.extend hsrc
      rw [mallocLoop_again hf hext] at hrun
      rcases hcase with ⟨hnone, hfail, hm, hfl, hpages⟩ | ⟨hsome, q, free', -, hl, hl1⟩
      · -- no page: the heap is as before
        by_cases h0 : s1.freeList = 0
        · rw [if_pos h0] at hrun
          cases hrun
          exact .inr ⟨rfl, hno, hfl ▸ h0, hnone⟩
        · rw [if_neg h0] at hrun
          rcases ih h1 hrun with ⟨hp, hfit | ⟨-, ha, hlt, hob⟩⟩ | ⟨-, -, h0', -⟩
          · rw [(hinv.listed.of_same hm hfl).fits_iff, ← hinv.listed.fits_iff] at hfit
            exact absurd hfit hno
          · rw [hpages] at hlt
            exact .inl ⟨hp, .inr ⟨fun hnull => h0 (hfl.trans hnull.1), ha, hlt,
              Obtains.later (hfail hlt) hob⟩⟩
          · exact absurd h0' h0
      · -- one page more
        obtain ⟨hlt, hob⟩ := hsrc.obtains hsome
        rw [if_neg hl1.head_ne] at hrun
        rcases ih h1 hrun with ⟨hp, hfit | ⟨-, ha, -, -⟩⟩ | ⟨-, -, h0, -⟩
        · rcases hl1.fits_cons.mp hfit with ha | hb
          · exact .inl ⟨hp, .inr ⟨fun hnull => hsome hnull.2, ha, hlt, hob⟩⟩
          · exact absurd (hl.fits_iff.mpr hb) hno
        · exact .inl ⟨hp, .inr ⟨fun hnull => hsome hnull.2, ha, hlt, hob⟩⟩
        · exact absurd h0 hl1.head_ne
    · rw [mallocLoop_found hf] at hrun
      cases hrun
      exact .inl ⟨Nat.succ_ne_zero _, .inl hfit⟩

-- ==== sufficient

/-- With enough fuel, the loop returns. -/
def LoopReturns (E : KEnv) (pageAlloc : KM Nat) (a : Nat) (s : KState) : Prop :=
  ∃ n, ∀ fuel, n ≤ fuel → ∃ p s', mallocLoop E pageAlloc a fuel s = (.ok p, s')

/-- It does if it finds a block, and otherwise if the extension leaves no
block or a state from which it does. -/
theorem HeapOk.loop_returns (h : HeapOk E m₀ used s)
    (hnext : ¬ HasFit s a → ∃ s1, extendHeap E pageAlloc s = (.ok (), s1)
      ∧ (s1.freeList = 0 ∨ LoopReturns E pageAlloc a s1)) :
    LoopReturns E pageAlloc a s := by
  by_cases hfits : HasFit s a
  · refine ⟨131073, fun fuel hfuel => ?_⟩
    obtain ⟨n, rfl⟩ := Nat.exists_eq_add_of_le' (Nat.le_trans (by decide : 1 ≤ 131073) hfuel)
    rcases h.search a (n + 1) with ⟨-, hle⟩ | ⟨-, hno⟩ | ⟨prev, cur, hf, -⟩
    · omega
    · exact absurd hfits hno
    · exact ⟨_, _, mallocLoop_found hf⟩
  · obtain ⟨s1, hext, hcase⟩ := hnext hfits
    -- fuel for this round's search, and for the rounds to come
    obtain ⟨k, hk⟩ : ∃ k, ∀ fuel, k ≤ fuel →
        s1.freeList = 0 ∨ ∃ p s', mallocLoop E pageAlloc a fuel s1 = (.ok p, s') := by
      rcases hcase with h0 | ⟨k, hk⟩
      · exact ⟨0, fun _ _ => .inl h0⟩
      · exact ⟨k, fun fuel hfuel => .inr (hk fuel hfuel)⟩
    refine ⟨131073 + k, fun fuel hfuel => ?_⟩
    obtain ⟨n, rfl⟩ := Nat.exists_eq_add_of_le' (show 1 ≤ fuel by omega)
    rcases h.search a (n + 1) with ⟨-, hle⟩ | ⟨hf, -⟩ | ⟨-, -, -, hfit⟩
    · omega
    · rw [mallocLoop_again hf hext]
      by_cases h0 : s1.freeList = 0
      · rw [if_pos h0]
        exact ⟨0, s1, rfl⟩
      · rw [if_neg h0]
        exact (hk n (by omega)).resolve_left h0
    · exact absurd hfit hfits

theorem HeapOk.returns_of_empty (hsrc : PageSource E pageAlloc) (h : HeapOk E m₀ used s)
    (h0 : s.freeList = 0) (hno : NoPage pageAlloc s) : LoopReturns E pageAlloc a s := by
  refine h.loop_returns fun _ => ?_
  obtain ⟨s1, hext, -, ⟨-, -, -, hfl, -⟩ | ⟨hsome, -⟩⟩ := h.extend hsrc
  · exact ⟨s1, hext, .inl (hfl.trans h0)⟩
  · exact absurd hno hsome

/-- A page that comes in the end is enough for a request that fits into
one: by induction on how often `page_alloc` fails before. -/
theorem HeapOk.returns_of_obtains (hsrc : PageSource E pageAlloc) (ha : a ≤ 4080)
    (hob : Obtains pageAlloc s) : HeapOk E m₀ used s → s.heapPages.length < 1024 →
    LoopReturns E pageAlloc a s := by
  induction hob with
  | now hrun hp =>
    intro h hlt
    refine h.loop_returns fun _ => ?_
    obtain ⟨s1, hext, h1, ⟨hno, -⟩ | ⟨-, q, free, -, -, hl1⟩⟩ := h.extend hsrc
    · rcases hno with hfull | hfail
      · exact absurd hlt (Nat.not_lt.mpr hfull)
      · rw [hrun] at hfail
        exact absurd (Except.ok.inj hfail) hp
    · refine ⟨s1, hext, .inr (h1.loop_returns fun hno => ?_)⟩
      exact absurd (hl1.fits_cons.mpr (.inl ha)) hno
  | later hrun _ ih =>
    intro h hlt
    refine h.loop_returns fun _ => ?_
    obtain ⟨s1, hext, h1, ⟨-, hfail, -, -, hpages⟩ | ⟨hsome, -⟩⟩ := h.extend hsrc
    · have hs1 := hfail hlt
      rw [hrun] at hs1
      cases hs1
      exact ⟨_, hext, .inr (ih h1 (hpages ▸ hlt))⟩
    · refine absurd (.inr ?_) hsome
      rw [hrun]

-- ==== the call

theorem alignSize_le_page : alignSize (size + 16) ≤ 4080 ↔ size ≤ 4064 := by
  unfold alignSize
  omega

theorem kernelMalloc_refused (fuel : Nat) (h : size = 0 ∨ 4080 < size) :
    kernelMalloc E pageAlloc fuel size s = (.ok 0, s) := by
  unfold kernelMalloc
  rw [if_pos h]
  rfl

theorem kernelMalloc_loop (fuel : Nat) (h : ¬ (size = 0 ∨ 4080 < size)) :
    kernelMalloc E pageAlloc fuel size s
      = mallocLoop E pageAlloc (alignSize (size + 16)) fuel s := by
  unfold kernelMalloc
  rw [if_neg h]

/-- When no free block fits, none is to come, and the list does not end
empty, no fuel is enough. -/
theorem HeapOk.never_returns (h : HeapOk E m₀ used s) (hsrc : PageSource E pageAlloc)
    (size : Nat) (hsz : ¬ (size = 0 ∨ 4080 < size)) (hl : Listed s free)
    (hsmall : ∀ b ∈ free, b.size < alignSize (size + 16))
    (hpage : 4080 < alignSize (size + 16) ∨ ¬ Obtains pageAlloc s)
    (hnull : ¬ (s.freeList = 0 ∧ NoPage pageAlloc s)) :
    ¬ ∃ fuel p s', kernelMalloc E pageAlloc fuel size s = (.ok p, s') := by
  rintro ⟨fuel, p, s', hrun⟩
  rw [kernelMalloc_loop fuel hsz] at hrun
  rcases mallocLoop_needs hsrc fuel h hrun with ⟨-, hfit | ⟨-, ha, -, hob⟩⟩ | ⟨-, -, hempty⟩
  · obtain ⟨b, hb, hle⟩ := hl.fits_iff.mp hfit
    exact absurd (hsmall b hb) (Nat.not_lt.mpr hle)
  · rcases hpage with hlt | hno
    · exact absurd ha (Nat.not_le.mpr hlt)
    · exact hno hob
  · exact hnull hempty

/-- In every state of every run and for every page source,
`kernel_malloc(size)` returns just when the size is not admitted, or a
free block is large enough, or there is no free block and no page to be
had, or the size is at most 4064 and `page_alloc` gives a page in the
end. It returns `NULL` just in the first and the third case. -/
theorem kernel_malloc_returns_iff {live : List (Nat × Nat)} (h : HeapRun E s live)
    (hsrc : PageSource E pageAlloc) (size : Nat) :
    ((∃ fuel p s', kernelMalloc E pageAlloc fuel size s = (.ok p, s'))
        ↔ size = 0 ∨ 4080 < size ∨ HasFit s (alignSize (size + 16))
          ∨ (s.freeList = 0 ∧ NoPage pageAlloc s)
          ∨ (size ≤ 4064 ∧ s.heapPages.length < 1024 ∧ Obtains pageAlloc s))
      ∧ ∀ fuel p s', kernelMalloc E pageAlloc fuel size s = (.ok p, s') →
          (p = 0 ↔ size = 0 ∨ 4080 < size
            ∨ (¬ HasFit s (alignSize (size + 16)) ∧ s.freeList = 0 ∧ NoPage pageAlloc s)) := by
  have hok := h.heapOk
  by_cases hsz : size = 0 ∨ 4080 < size
  · refine ⟨⟨fun _ => ?_, fun _ => ⟨0, 0, s, kernelMalloc_refused 0 hsz⟩⟩, fun fuel p s' hrun => ?_⟩
    · exact hsz.imp_right .inl
    · rw [kernelMalloc_refused fuel hsz] at hrun
      cases hrun
      exact ⟨fun _ => hsz.imp_right .inl, fun _ => rfl⟩
  have hpos : size ≠ 0 := fun h0 => hsz (.inl h0)
  have hle : ¬ 4080 < size := fun hlt => hsz (.inr hlt)
  simp only [kernelMalloc_loop _ hsz, hpos, hle, false_or, ← alignSize_le_page]
  refine ⟨⟨?_, fun hcond => ?_⟩, fun fuel p s' hrun => ?_⟩
  · rintro ⟨fuel, p, s', hrun⟩
    rcases mallocLoop_needs hsrc fuel hok hrun with ⟨-, hfit | ⟨-, hob⟩⟩ | ⟨-, -, hnull⟩
    · exact .inl hfit
    · exact .inr (.inr hob)
    · exact .inr (.inl hnull)
  · have hret : LoopReturns E pageAlloc (alignSize (size + 16)) s := by
      rcases hcond with hfit | ⟨h0, hno⟩ | ⟨ha, hlt, hob⟩
      · exact hok.loop_returns fun hno => absurd hfit hno
      · exact hok.returns_of_empty hsrc h0 hno
      · exact HeapOk.returns_of_obtains hsrc ha hob hok hlt
    obtain ⟨n, hn⟩ := hret
    exact ⟨n, hn n (Nat.le_refl n)⟩
  · rcases mallocLoop_needs hsrc fuel hok hrun with ⟨hp, hgot⟩ | ⟨hp, hnull⟩
    · refine ⟨fun h0 => absurd h0 hp, fun ⟨hno, hnull⟩ => ?_⟩
      rcases hgot with hfit | ⟨hlist, -⟩
      · exact absurd hfit hno
      · exact absurd hnull hlist
    · exact ⟨fun _ => hnull, fun _ => hp⟩

theorem twoBlocks_listed : Listed twoBlocks [⟨0x10b0, 3904⟩] := by
  refine ⟨⟨by decide +kernel, by decide +kernel, ?_⟩, by simp⟩
  show blockNext twoBlocks.mem 0x10b0 = 0
  decide +kernel

theorem kernel_malloc_returns_iff_twoBlocks :
    ∃ fuel p s', kernelMalloc plainKEnv onePage fuel 200 twoBlocks = (.ok p, s') :=
  (kernel_malloc_returns_iff twoBlocks_run onePage_source 200).1.mpr
    (.inr (.inr (.inl (twoBlocks_listed.fits_iff.mpr
      ⟨_, List.mem_cons_self, by decide⟩))))

theorem onePage_spent (h : Obtains onePage s) : 0x1000 ∉ s.heapPages := by
  induction h with
  | now hrun hp =>
    intro hin
    cases hrun
    exact hp (if_pos hin)
  | later hrun _ ih =>
    have hs : _ = _ := congrArg Prod.snd hrun
    dsimp only [onePage] at hs
    rw [hs]
    exact ih

/-- A request of 4000 bytes, when a block of 3904 bytes is free and no page
is left, and one of 4080 bytes on the empty heap with a page at hand: no
fuel is enough for either. -/
theorem kernel_malloc_never_returns :
    (¬ ∃ fuel p s', kernelMalloc plainKEnv onePage fuel 4000 twoBlocks = (.ok p, s'))
      ∧ ¬ ∃ fuel p s', kernelMalloc plainKEnv onePage fuel 4080
          (virtualMemoryInit plainKEnv blank).2 = (.ok p, s') := by
  constructor
  · have hok := twoBlocks_run.heapOk
    have hsmall : ∀ b ∈ [(⟨0x10b0, 3904⟩ : Blk)], b.size < alignSize (4000 + 16) := by
      intro b hb
      rw [List.mem_singleton.mp hb]
      decide
    have hspent : ¬ Obtains onePage twoBlocks := fun hob => onePage_spent hob (by decide +kernel)
    exact hok.never_returns onePage_source 4000 (by decide) twoBlocks_listed hsmall (.inr hspent)
      fun hnull => twoBlocks_listed.head_ne hnull.1
  · have hrun : HeapRun plainKEnv (virtualMemoryInit plainKEnv blank).2 [] :=
      ⟨blank, rfl, rfl, Relation.ReflTransGen.refl⟩
    have hl : Listed (virtualMemoryInit plainKEnv blank).2 [] :=
      ⟨show _ = _ by decide +kernel, by simp⟩
    refine hrun.heapOk.never_returns onePage_source 4080 (by decide) hl (by simp) (.inl (by decide))
      fun hnull => ?_
    rcases hnull.2 with hfull | hfail
    · exact absurd hfull (by decide +kernel)
    · exact absurd hfail (by decide +kernel)

end RojocOS.Kernel
