/-
Mapping from a stock of pages.

Mapping.lean says what a `virtual_memory_map` that returns has done,
whatever the allocator. Here the allocator is the kernel's, and the
question is whether it returns 0, and how many pages it takes. The answer
is exact: the tables that are missing on the way to the address
(`missing`), all of them if the free pages suffice, and otherwise every
page that is left (`Tree.map_one`).

`Took P o k` is what one piece of such work does to the pages: the first
`k` free ones go to `o`, and the pages in `P` keep their bytes. `P` is a
parameter so that a loop can add to it the pages it is done with.
-/
import RojocOS.Kernel.Proofs.Mapping

namespace RojocOS.Kernel

open ByteMap Prog

variable {perm pn root va : Nat} {m m' : ByteMap}
variable {P P' : Nat → Prop} {o : Int} {s s' : KState}

-- ==== taking pages

/-- The first `k` free pages went to `o`; pages in `P` are as before. -/
structure Took (P : Nat → Prop) (o : Int) (k : Nat) (s s' : KState) : Prop where
  enough : k ≤ (freeQueue s).length
  queue : freeQueue s' = (freeQueue s).drop k
  pages : ∀ pn, s'.pageinfo pn
    = if pn ∈ (freeQueue s).take k then ⟨o, (s.pageinfo pn).refcount + 1⟩
      else s.pageinfo pn
  mem : ∀ x, P (x / 4096) → s'.mem x = s.mem x
  mach : s' = { s with
    mem := s'.mem, pageinfo := s'.pageinfo, pageno := s'.pageno }

/-- The kernel can take pages for the current process `o`, and the pages
in `P` are not among the free ones. -/
structure Stocked (P : Nat → Prop) (o : Int) (s : KState) : Prop where
  cur : s.cur.pid = o
  cursor : s.pageno < 512
  zero : Owned s 0
  prot : ∀ pn, P pn → Owned s pn

/-- Pages in use that the work may write to. -/
def Loose (P : Nat → Prop) (s : KState) (pn : Nat) : Prop :=
  Owned s pn ∧ ¬ P pn ∧ pn < 512

section Took

variable {k k' : Nat} {s'' : KState}

theorem not_owned_of_free (h : pn ∈ freeQueue s) : ¬ Owned s pn :=
  fun hown => hown (mem_freeQueue.mp h).2

theorem Took.of_mem (hm : ∀ x, P (x / 4096) → m' x = s.mem x) :
    Took P o 0 s { s with mem := m' } where
  enough := Nat.zero_le _
  queue := rfl
  pages := fun pn => by
    rw [List.take_zero, if_neg List.not_mem_nil]
  mem := hm
  mach := rfl

theorem Took.refl : Took P o 0 s s := Took.of_mem fun _ _ => rfl

section

variable (h : Took P o k s s')

include h

theorem Took.mono (hP : ∀ pn, P' pn → P pn) : Took P' o k s s' :=
  { h with mem := fun x hx => h.mem x (hP _ hx) }

theorem Took.trans (h' : Took P o k' s' s'') (ho : o ≠ 0) : Took P o (k + k') s s'' := by
  refine ⟨?_, ?_, fun pn => ?_, fun x hx => (h'.mem x hx).trans (h.mem x hx), ?_⟩
  · have h1 := h.enough
    have h2 := h'.enough
    rw [h.queue, List.length_drop] at h2
    omega
  · rw [h'.queue, h.queue, List.drop_drop]
  · rw [h'.pages, h.queue, List.take_add]
    by_cases h2 : pn ∈ ((freeQueue s).drop k).take k'
    · -- a page taken later was free in between
      have hfree : pn ∈ freeQueue s' := h.queue ▸ List.mem_of_mem_take h2
      have h1 : pn ∉ (freeQueue s).take k := fun h1 => by
        have hp := h.pages pn
        rw [if_pos h1] at hp
        exact not_owned_of_free hfree (by unfold Owned; rw [hp]; exact ho)
      rw [if_pos h2, if_pos (List.mem_append_right _ h2), h.pages, if_neg h1]
    · rw [if_neg h2, h.pages]
      by_cases h1 : pn ∈ (freeQueue s).take k
      · rw [if_pos h1, if_pos (List.mem_append_left _ h1)]
      · rw [if_neg h1, if_neg fun hin => (List.mem_append.mp hin).elim h1 h2]
  · rw [h'.mach, h.mach]

theorem Took.info (hp : Owned s pn) : s'.pageinfo pn = s.pageinfo pn :=
  (h.pages pn).trans (if_neg fun hin => not_owned_of_free (List.mem_of_mem_take hin) hp)

theorem Took.owned (hp : Owned s pn) : Owned s' pn := by
  unfold Owned
  rw [h.info hp]
  exact hp

theorem Took.processes : s'.processes = s.processes := by
  rw [h.mach]

end

/-- `page_alloc` for the current process. -/
theorem Stocked.page_alloc (h : Stocked P o s) (ho : o ≠ 0) :
    (freeQueue s = [] ∧ pageAlloc o s = (.ok 0, s))
      ∨ ∃ c s', c ∈ freeQueue s ∧ c ≠ 0 ∧ c < 512
          ∧ pageAlloc o s = (.ok (c * 4096), s')
          ∧ Took P o 1 s s' ∧ Stocked P o s'
          ∧ s'.pageinfo c = ⟨o, (s.pageinfo c).refcount + 1⟩
          ∧ s'.mem = fill s.mem (c * 4096) 4096 0 := by
  rcases pageAlloc_eq h.cursor ho with hnil | ⟨c, rest, hq, heq, hrest⟩
  · exact .inl hnil
  have hc : c ∈ freeQueue s := hq ▸ List.mem_cons_self
  obtain ⟨hlt, -⟩ := mem_freeQueue.mp hc
  have htook : Took P o 1 s (takePage o { s with pageno := c }) := by
    refine ⟨?_, ?_, fun pn => ?_, fun x hx => takePage_mem fun hxc => ?_, rfl⟩
    · rw [hq]
      exact Nat.succ_pos _
    · rw [hrest, hq]
      rfl
    · rw [hq]
      show _ = if pn ∈ [c] then _ else _
      by_cases hpn : pn = c
      · subst hpn
        rw [if_pos (List.mem_singleton_self pn)]
        exact if_pos rfl
      · rw [if_neg fun hin => hpn (List.mem_singleton.mp hin)]
        exact if_neg hpn
    · change x / 4096 = c at hxc
      exact not_owned_of_free hc (hxc ▸ h.prot _ hx)
  exact .inr ⟨c, _, hc, fun h0 => not_owned_of_free hc (h0 ▸ h.zero), hlt, heq, htook,
    ⟨h.cur, hlt, htook.owned h.zero, fun pn hp => htook.owned (h.prot pn hp)⟩,
    if_pos rfl, rfl⟩

end Took

-- ==== mapping

theorem missing_congr (h : ∀ j ≤ 3, reach m' root va j = reach m root va j) :
    missing m' root va = missing m root va :=
  missingFrom_congr fun j _ hj => h j (by omega)

/-- The tree of a process whose pages are loose. -/
theorem Stocked.mapper (ho : o ≠ 0) :
    Mapper 0 root (Tree (Stocked P o) (Loose P) root) fun k _ s _ s' => Took P o k s s' where
  refl := Took.refl
  trans := fun h h' => h.trans h' ho
  trees := fun h => h.trees
  isRoot := fun h => h.root
  table := fun h hrt hl => ⟨h.inner _ _ hrt hl, (h.taken _ _ hrt).2.2⟩
  page := by
    intro role s h
    rw [pagetableAlloc_eq h.ok.cur]
    rcases h.ok.page_alloc ho with hnil | ⟨c, s1, hc, hc0, hlt, heq, htook, hst, hinfo, hmem⟩
    · exact .inl hnil
    have hcP : ¬ P c := fun hcP => not_owned_of_free hc (h.ok.prot c hcP)
    have hcr : role c = none := by
      rcases hr : role c with - | p
      · rfl
      · exact absurd (h.taken c p hr).1 (not_owned_of_free hc)
    have hmem : ∀ x, x / 4096 ≠ c → s1.mem x = s.mem x := fun x hx => by
      rw [hmem, fill_of_not_mem fun hin => hx (by omega)]
    refine .inr ⟨c, s1, hc0, hlt, hcr, heq, hmem, ?_⟩
    intro t l pre i m' hrt hi hlink
    have htP := (h.taken t _ hrt).2.1
    have hown : Owned { s1 with mem := m' } c := by
      show (s1.pageinfo c).owner ≠ PO_FREE
      rw [hinfo]
      exact ho
    refine ⟨htook.trans (Took.of_mem fun x hx => ?_) ho,
      h.link ⟨hst.cur, hst.cursor, hst.zero, hst.prot⟩ hrt hi hcr ⟨hown, hcP, hlt⟩
        (fun pn hp => ⟨htook.owned hp.1, hp.2⟩) hc0 hlink⟩
    -- neither the entry nor the new page is protected
    have hxc : x / 4096 ≠ c := fun hxc => hcP (hxc ▸ hx)
    have hxt : x / 4096 ≠ t := fun hxt => htP (hxt ▸ hx)
    rw [hmem x hxc]
    exact hlink.keep x hxc (by omega)
  leaf := by
    intro role s t pre m' h hrt hm
    have htP := (h.taken t _ hrt).2.1
    refine ⟨Took.of_mem fun x hx => hm x fun hxt => htP (hxt ▸ hx),
      ⟨h.ok.cur, h.ok.cursor, h.ok.zero, h.ok.prot⟩, ?_, h.root, h.taken, h.inner⟩
    refine h.trees.congr fun pn p hp hl x h1 h2 => hm x fun hxt => ?_
    obtain rfl : pn = t := by omega
    rw [hrt] at hp
    cases hp
    exact absurd hl (Nat.lt_irrefl 3)

/-- `virtual_memory_map` of one page. -/
theorem Tree.map_one {role : Roles} (ho : o ≠ 0)
    (h : Tree (Stocked P o) (Loose P) root role s) (va pa perm : Nat)
    (hin : InRegion va pa 1 perm) :
    ∃ r s' k role', virtualMemoryMap (root * 4096) va pa 4096 perm
          (some pagetableAlloc) s = (.ok r, s')
      ∧ Took P o k s s' ∧ Tree (Stocked P o) (Loose P) root role' s'
      ∧ (∀ a, region a ≠ region va → leafTable s'.mem root a = leafTable s.mem root a)
      ∧ (∀ a, vpn a ≠ vpn va → leafEntry s'.mem root a = leafEntry s.mem root a)
      ∧ ((freeQueue s' = [] ∧ k < missing s.mem root va
            ∧ leafEntry s'.mem root va = leafEntry s.mem root va)
        ∨ (k = missing s.mem root va ∧ leafEntry s'.mem root va = pa + perm)) := by
  have hvpn : vpn va = va / 4096 := vpn_of_lt (by have := hin.2.2.2.1; omega)
  obtain ⟨r, role', s', k, hrun, htook, h', hcase⟩ :=
    (Stocked.mapper ho).map h va pa 1 perm hin
  refine ⟨r, s', k, role', hrun, htook, h', ?_⟩
  rcases hcase with ⟨-, hnil, -, hg, hless⟩ | ⟨-, hm, hk⟩
  · exact ⟨hg.table, fun a _ => hg.entry a, .inl ⟨hnil, hless, hg.entry va⟩⟩
  · refine ⟨hm.table, fun a ha => ?_, .inr ⟨hk, ?_⟩⟩
    · rw [hm.entry, if_neg (by omega)]
    · rw [hm.entry, if_pos (by omega), hvpn, Nat.sub_self, Nat.zero_mul, Nat.add_zero]

end RojocOS.Kernel
