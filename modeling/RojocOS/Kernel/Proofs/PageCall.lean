/-
`INT_SYS_PAGE_ALLOC`.

The handler takes a page for the process, maps it at the address asked
for without an allocator, and returns the address without looking at the
mapping's result. There is no table to map the page in if the process has
nothing in that 2 MiB region yet, and `virtual_memory_map` does not look
for one at some addresses (`Seen`). The page is lost then: it belongs to
the process, which cannot reach it, and the process is told that it can.

`PageReady` is what is asked of the state: the page table of the running
process is a tree of pages in use, and page 0 is not free. The call
always returns in such a state; `page_alloc_truthful_iff` says when it
tells the truth.
-/
import RojocOS.Kernel.Proofs.Fork
import RojocOS.Kernel.Proofs.MapFailure

namespace RojocOS.Kernel

open ByteMap Prog

-- ==== the state

/-- A page in use in physical memory. -/
def InUse (s : KState) (pn : Nat) : Prop := Owned s pn ∧ pn < 512

/-- What the call needs: a page table of pages in use, a process with a
number, the cursor of `page_alloc` on a page, and page 0 in use. -/
structure PageReady (s : KState) : Prop where
  table : ∃ role, Tree (fun _ => True) InUse (s.cur.pagetable / 4096) role s
  aligned : s.cur.pagetable % 4096 = 0
  pid : s.cur.pid ≠ 0
  cursor : s.pageno < 512
  zero : Owned s 0

/-- The address asked for. -/
def askedAddr (s : KState) : Nat := u64 s.cur.registers.rdi

/-- What the call reports is true: after `-1` no page has changed owner;
after anything else the address leads, with all three flags, to a cleared
page that was free and is now the process's own. -/
def Truthful (s s' : KState) : Prop :=
  (s'.cur.registers.rax = reg64 (-1) →
      ∀ pn, (s'.pageinfo pn).owner = (s.pageinfo pn).owner)
    ∧ (s'.cur.registers.rax ≠ reg64 (-1) →
      ∃ pn, pn < 512 ∧ (s.pageinfo pn).owner = PO_FREE
        ∧ (s'.pageinfo pn).owner = s.cur.pid
        ∧ virtualMemoryLookup s'.mem s'.cur.pagetable (askedAddr s)
          = ⟨pn, pn * 4096, 7⟩
        ∧ ∀ x, pn * 4096 ≤ x → x < pn * 4096 + 4096 → s'.mem x = 0)

/-- The last-level table of the address is there, and
`virtual_memory_map` will look for it. -/
def Covered (s : KState) : Prop :=
  leafTable s.mem (s.cur.pagetable / 4096) (askedAddr s) ≠ none
    ∧ askedAddr s / 2 ^ 21 % 2 ^ 32 ≠ 2 ^ 32 - 1

/-- The address leads to the very page that `page_alloc` will hand out,
left over from before the page was released. -/
def Stale (s : KState) : Prop :=
  ∃ pn, (freeQueue s).head? = some pn
    ∧ virtualMemoryLookup s.mem s.cur.pagetable (askedAddr s)
      = ⟨pn, pn * 4096, 7⟩

-- ==== the call

section Call

variable {s s₁ : KState} {pn : Nat}

/-- The state the call ends in, from the one after the mapping. -/
def answered (s : KState) (v : Nat) : KState :=
  s.updProc s.current fun p => { p with registers := { p.registers with rax := v } }

theorem answered_cur (s : KState) (v : Nat) :
    (answered s v).cur
      = { s.cur with registers := { s.cur.registers with rax := v } } :=
  KState.updProc_same s s.current _

@[simp]
theorem answered_mem (s : KState) (v : Nat) : (answered s v).mem = s.mem := rfl

@[simp]
theorem answered_pageinfo (s : KState) (v : Nat) :
    (answered s v).pageinfo = s.pageinfo := rfl

/-- Without a free page, `-1` and nothing else. -/
theorem sysPageAlloc_empty (h : PageReady s) (hq : freeQueue s = []) :
    sysPageAlloc s = (.ok (), answered s (reg64 (-1))) := by
  rcases pageAlloc_eq h.cursor h.pid with ⟨-, heq⟩ | ⟨pn, rest, hne, -, -⟩
  · unfold sysPageAlloc
    rw [get_bind, bind_of_ok heq, if_pos rfl]
    rfl
  · rw [hq] at hne
    cases hne

/-- The state after `page_alloc` has handed out page `pn`. -/
def handedOut (s : KState) (pn : Nat) : KState :=
  takePage s.cur.pid { s with pageno := pn }

@[simp]
theorem handedOut_cur (s : KState) (pn : Nat) : (handedOut s pn).cur = s.cur := rfl

theorem handedOut_owner (s : KState) (pn q : Nat) :
    ((handedOut s pn).pageinfo q).owner
      = if q = pn then s.cur.pid else (s.pageinfo q).owner := by
  unfold handedOut takePage
  dsimp only
  split <;> rfl

/-- The page that is handed out, and what the call does with it. -/
theorem sysPageAlloc_page (h : PageReady s) (hq : freeQueue s ≠ []) :
    ∃ pn, (freeQueue s).head? = some pn ∧ pn ≠ 0 ∧ pn < 512
      ∧ (s.pageinfo pn).owner = PO_FREE
      ∧ ∀ r s', virtualMemoryMap s.cur.pagetable (askedAddr s) (pn * 4096) 4096 7
            none (handedOut s pn) = (.ok r, s') →
          sysPageAlloc s = (.ok (), answered s' (askedAddr s)) := by
  rcases pageAlloc_eq h.cursor h.pid with ⟨hnil, -⟩ | ⟨pn, rest, hcons, heq, -⟩
  · exact absurd hnil hq
  obtain ⟨hlt, hfree⟩ := mem_freeQueue.mp (hcons ▸ List.mem_cons_self : pn ∈ freeQueue s)
  have hpn : pn ≠ 0 := fun h0 => h.zero (h0 ▸ hfree)
  refine ⟨pn, by rw [hcons]; rfl, hpn, hlt, hfree, fun r s' hmap => ?_⟩
  unfold handedOut askedAddr at hmap
  unfold sysPageAlloc
  rw [get_bind, bind_of_ok heq, if_neg (by omega), bind_of_ok hmap]
  rfl

/-- Clearing the page leaves the table of the process. -/
theorem PageReady.table_kept (h : PageReady s) (hfree : (s.pageinfo pn).owner = PO_FREE) :
    ∃ role, role (s.cur.pagetable / 4096) = some ⟨0, 0, 0⟩
      ∧ Tables (handedOut s pn).mem role
      ∧ (∀ t p, role t = some p → t ≠ pn)
      ∧ (∀ t p, role t = some p → 0 < p.level → t ≠ 0)
      ∧ (∀ va, leafTable (handedOut s pn).mem (s.cur.pagetable / 4096) va
          = leafTable s.mem (s.cur.pagetable / 4096) va)
      ∧ ∀ va, virtualMemoryLookup (handedOut s pn).mem s.cur.pagetable va
          = virtualMemoryLookup s.mem s.cur.pagetable va := by
  obtain ⟨role, htree⟩ := h.table
  have hne : ∀ t p, role t = some p → t ≠ pn := by
    intro t p hp htp
    exact (htree.taken t p hp).1 (htp ▸ hfree)
  have hpage : ∀ t p, role t = some p → ∀ x, t * 4096 ≤ x →
      x < t * 4096 + 4096 → (handedOut s pn).mem x = s.mem x := by
    intro t p hp x h1 h2
    have := hne t p hp
    refine takePage_mem ?_
    show x / 4096 ≠ pn
    omega
  have ht := htree.trees.congr fun t p hp _ => hpage t p hp
  have hroot : s.cur.pagetable = s.cur.pagetable / 4096 * 4096 := by
    have := h.aligned
    omega
  refine ⟨role, htree.root, ⟨ht, fun t p hp => (htree.taken t p hp).2⟩, hne,
    htree.inner, fun va => ?_, fun va => ?_⟩
  · exact htree.trees.leafTable_congr htree.root fun t l pre hp _ => hpage t _ hp
  · rw [hroot, ht.virtualMemoryLookup_eq htree.root,
      htree.trees.virtualMemoryLookup_eq htree.root,
      htree.trees.leafEntry_congr htree.root fun t l pre hp => hpage t _ hp]

/-- With the table in place the page is mapped. -/
theorem PageReady.covered (h : PageReady s) (hal : askedAddr s % 4096 = 0)
    (hq : freeQueue s ≠ []) (hcov : Covered s) :
    ∃ s', sysPageAlloc s = (.ok (), s') ∧ Truthful s s' := by
  obtain ⟨pn, -, hpn, hlt, hfree, hcall⟩ := sysPageAlloc_page h hq
  obtain ⟨role, hr, ht, hne, hin, hleaf, -⟩ := h.table_kept hfree
  have hva : askedAddr s < 2 ^ 64 := Nat.mod_lt _ (by decide)
  have hroot : s.cur.pagetable / 4096 * 4096 = s.cur.pagetable := by
    have := h.aligned
    omega
  rcases hl : leafTable s.mem (s.cur.pagetable / 4096) (askedAddr s) with - | t
  · exact absurd hl hcov.1
  have hl' := (hleaf _).trans hl
  have hrt := ht.leafTable_some hr hl'
  have hmap := ht.virtualMemoryMap_one hr hal hva (Nat.mul_mod_left pn 4096)
    (by omega) (show 7 < 4096 by decide) rfl hcov.2 hl' (hin t _ hrt (Nat.succ_pos 2))
  rw [hroot] at hmap
  refine ⟨_, hcall _ _ hmap, ?_⟩
  have htn := hne t _ hrt
  have hi := pageindex_lt (askedAddr s) 3
  -- the entry is what was stored, and the page is where it was not
  have htrees := ht.toTrees.store_leaf hrt hi (v := pn * 4096 + 7)
  have hent := ht.toTrees.leafEntry_page hr hl' (v := pn * 4096 + 7) (by omega)
    (askedAddr s)
  rw [if_pos rfl] at hent
  refine ⟨fun hrax => ?_, fun _ => ⟨pn, hlt, hfree, ?_, ?_, fun x h1 h2 => ?_⟩⟩
  · rw [answered_cur] at hrax
    unfold reg64 at hrax
    dsimp only at hrax
    omega
  · exact (handedOut_owner s pn pn).trans (if_pos rfl)
  · rw [answered_cur]
    show virtualMemoryLookup (store _ _ 8 (pn * 4096 + 7)) s.cur.pagetable _ = _
    rw [← hroot, htrees.virtualMemoryLookup_eq hr, hent, if_pos (by omega),
        pteAddr_page pn (by decide), hal]
    have hi32 : i32 ((pn * 4096 + 7) / 4096) = pn := by
      unfold i32 u32
      omega
    have hflags : (pn * 4096 + 7) % 4096 = 7 := by omega
    rw [hi32, hflags, Nat.add_zero]
  · show store (fill s.mem (pn * 4096) 4096 0) _ 8 _ x = 0
    rw [store_of_not_mem (by omega)]
    exact fill_of_mem ⟨h1, h2⟩

/-- Without it the address leads where it led before, and is returned all
the same. -/
theorem PageReady.uncovered (h : PageReady s) (hal : askedAddr s % 4096 = 0)
    (hq : freeQueue s ≠ []) (hcov : ¬ Covered s) :
    ∃ s', sysPageAlloc s = (.ok (), s') ∧ (Truthful s s' ↔ Stale s) := by
  obtain ⟨pn, hhead, hpn, hlt, hfree, hcall⟩ := sysPageAlloc_page h hq
  obtain ⟨role, hr, ht, -, -, hleaf, hview⟩ := h.table_kept hfree
  have hva : askedAddr s < 2 ^ 64 := Nat.mod_lt _ (by decide)
  have hroot : s.cur.pagetable / 4096 * 4096 = s.cur.pagetable := by
    have := h.aligned
    omega
  have hmiss : askedAddr s / 2 ^ 21 % 2 ^ 32 = 2 ^ 32 - 1
      ∨ leafTable (handedOut s pn).mem (s.cur.pagetable / 4096) (askedAddr s)
        = none := by
    rw [hleaf]
    by_contra hx
    push Not at hx
    exact hcov ⟨hx.2, hx.1⟩
  have hmap := ht.virtualMemoryMap_none hr hal hva (Nat.mul_mod_left pn 4096)
    (by omega) (show 7 < 4096 by decide) rfl hmiss
  rw [hroot] at hmap
  refine ⟨_, hcall _ _ hmap, ?_⟩
  have hrax : askedAddr s ≠ reg64 (-1) := by
    unfold reg64
    omega
  simp only [Truthful, Stale, answered_cur, answered_mem, answered_pageinfo,
    handedOut_cur, handedOut_owner, hview, hhead]
  constructor
  · rintro ⟨-, hx⟩
    obtain ⟨q, -, hqfree, hqown, hqview, -⟩ := hx hrax
    -- the page that changed hands is the one handed out
    by_cases hqp : q = pn
    · exact ⟨pn, rfl, hqp ▸ hqview⟩
    · rw [if_neg hqp, hqfree] at hqown
      exact absurd hqown.symm h.pid
  · rintro ⟨q, hq', hqview⟩
    cases hq'
    exact ⟨fun hx => absurd hx hrax, fun _ => ⟨pn, hlt, hfree, if_pos rfl, hqview,
      fun x h1 h2 => fill_of_mem ⟨h1, h2⟩⟩⟩

/-- For every page-aligned address and any amount of free memory the call
returns, and it tells the truth exactly if there is no page to give, or
the table of the address is there and looked for, or the address leads to
the page already. -/
theorem page_alloc_truthful_iff (h : PageReady s) (hal : askedAddr s % 4096 = 0) :
    ∃ s', sysPageAlloc s = (.ok (), s')
      ∧ (Truthful s s' ↔ freePages s = 0 ∨ Covered s ∨ Stale s) := by
  by_cases hq : freeQueue s = []
  · refine ⟨_, sysPageAlloc_empty h hq, ?_⟩
    have hzero : freePages s = 0 := by
      rw [← length_freeQueue, hq]
      rfl
    refine iff_of_true ⟨fun _ _ => rfl, fun hrax => ?_⟩ (.inl hzero)
    rw [answered_cur] at hrax
    exact absurd rfl hrax
  have hpos : freePages s ≠ 0 := by
    rw [← length_freeQueue]
    exact fun h0 => hq (List.length_eq_zero_iff.mp h0)
  by_cases hcov : Covered s
  · obtain ⟨s', hrun, htrue⟩ := h.covered hal hq hcov
    exact ⟨s', hrun, iff_of_true htrue (.inr (.inl hcov))⟩
  · obtain ⟨s', hrun, hiff⟩ := h.uncovered hal hq hcov
    refine ⟨s', hrun, hiff.trans ⟨fun hx => .inr (.inr hx), fun hx => ?_⟩⟩
    exact (hx.resolve_left hpos).resolve_left hcov

end Call

-- ==== a small process

/-- Process 1 of `twoPages` asks for the page at `va`. -/
def asking (n va : Nat) : KState :=
  (twoPages n).updProc 1 fun p => { p with registers := { p.registers with rdi := va } }

theorem asking_ready (n va : Nat) : PageReady (asking n va) := by
  obtain ⟨-, htrees, hroot, htaken, hinner⟩ := twoPages_tree
  have hpt : (asking n va).cur.pagetable = 0x1000 := rfl
  refine ⟨⟨twoRoles, trivial, htrees, by rw [hpt]; exact hroot, fun pn p hp => ⟨htaken pn p hp, ?_⟩, hinner⟩,
    by rw [hpt], ?_, ?_, ?_⟩
  · rcases twoRoles_cases hp with ⟨rfl, -⟩ | ⟨rfl, -⟩ | ⟨rfl, -⟩ | ⟨rfl, -⟩ | ⟨rfl, -⟩
    all_goals decide
  · show (1 : Int) ≠ 0
    decide
  · show 8 < 512
    decide
  · show ((twoPages n).pageinfo 0).owner ≠ 0
    simp [twoPages]

/-- A page in a region where the process has others. -/
theorem page_alloc_truthful_iff_covered :
    ∃ s', sysPageAlloc (asking 1 0x3000) = (.ok (), s')
      ∧ Truthful (asking 1 0x3000) s' := by
  obtain ⟨s', hrun, hiff⟩ := page_alloc_truthful_iff (asking_ready 1 0x3000) (by decide)
  refine ⟨s', hrun, hiff.mpr (.inr (.inl ⟨?_, by decide⟩))⟩
  have hleaf : leafTable (asking 1 0x3000).mem 1 0x3000 = some 6 := by decide +kernel
  show leafTable (asking 1 0x3000).mem 1 0x3000 ≠ none
  rw [hleaf]
  exact Option.some_ne_none 6

/-- A page at 4 MiB, where it has none: the address is returned, page 8 is
taken, and the address leads nowhere. -/
theorem page_alloc_unmapped :
    PageReady (asking 1 0x400000)
      ∧ (sysPageAlloc (asking 1 0x400000)).1.toOption = some ()
      ∧ (sysPageAlloc (asking 1 0x400000)).2.cur.registers.rax = 0x400000
      ∧ ((asking 1 0x400000).pageinfo 8).owner = PO_FREE
      ∧ ((sysPageAlloc (asking 1 0x400000)).2.pageinfo 8).owner = 1
      ∧ virtualMemoryLookup (sysPageAlloc (asking 1 0x400000)).2.mem 0x1000 0x400000
        = ⟨-1, 2 ^ 64 - 1, 0⟩ := by
  refine ⟨asking_ready 1 0x400000, ?_⟩
  decide +kernel

end RojocOS.Kernel
