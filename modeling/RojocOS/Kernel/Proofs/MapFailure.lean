/-
When `virtual_memory_map` fails.

kernel.h says it returns `-1` if the allocator was needed and there was
none, or it returned `NULL`. For a page table that is a tree of pages in
use, every failing lookup is of this kind (`Tree.tableEntry_null`): a
table of the walk is missing, it is missing still when the call returns,
and the last thing the call did was to be refused a page (`Lacking`).

# The cache

The loop remembers the region it looked up last by the address shifted
right by 21, in an `int`, and starts with `-1`. Shifted by 21 an address
has 43 bits; cut to 32 they can be all ones. Then the first page of the
range is taken to be in the region looked up last, no lookup is made, the
table pointer is `NULL` as initialised, and the call returns `-1` with
every table in place. The topmost 2 MiB of the address space are one such
region, and there is one in every 2^53 bytes.

Inside a range the cache is right: neighbours in one region have the same
index, and neighbours in different regions have different ones.

`map_fails_iff` puts the two together.
-/
import RojocOS.Kernel.Proofs.Mapping

namespace RojocOS.Kernel

open ByteMap Prog

variable {ok : KState → Prop} {taken : KState → Nat → Prop}
  {allocator : Option (KM Nat)} {root l perm t va va' : Nat} {role : Roles} {s s' : KState}

-- ==== the cause

/-- No page was to be had: there is no allocator, or it was asked in `t`
and returned `NULL`, which left `s'`. -/
def Refused (allocator : Option (KM Nat)) (root va : Nat) (s' : KState) : Prop :=
  allocator = none
    ∨ ∃ alloc t, allocator = some alloc ∧ leafTable t.mem root va = none
        ∧ alloc t = (.ok 0, s')

/-- One of the `n` pages from `va` on lacks a table, before the call and
after it, and no page was to be had for it. -/
def Lacking (allocator : Option (KM Nat)) (root va n : Nat) (s s' : KState) : Prop :=
  ∃ i, i < n ∧ leafTable s.mem root (u64 (va + i * 4096)) = none
    ∧ leafTable s'.mem root (u64 (va + i * 4096)) = none
    ∧ Refused allocator root (u64 (va + i * 4096)) s'

/-- An entry that stays missing was refused. -/
theorem Tree.tableEntry_null (h : Tree ok taken root role s)
    (hl : l < 3) (hp : perm % 2 = 1) (ht : reach s.mem root va l = some t)
    (hrun : Kernel.tableEntry allocator perm (t * 4096) (pageindex va l) s
      = (.ok none, s')) : Refused allocator root va s' := by
  have hrt := h.trees.reach_role h.root (by omega) ht
  rcases hfo : follow s.mem t (pageindex va l) with - | c
  · -- the walk ends here, so there is no last-level table
    have hleaf : leafTable s.mem root va = none := by
      rw [leafTable_eq_reach]
      exact reach_none_of_le ((reach_succ_some ht).trans hfo) hl
    unfold Kernel.tableEntry at hrun
    rw [get_bind, follow_none hfo, if_neg (by decide)] at hrun
    cases allocator with
    | none => exact .inl rfl
    | some alloc =>
      dsimp only at hrun
      rw [if_neg (by omega)] at hrun
      obtain ⟨p, s1, halloc, hrest⟩ := bind_ok.mp hrun
      by_cases hp0 : p = 0
      · subst hp0
        rw [if_pos rfl] at hrest
        cases hrest
        exact .inr ⟨alloc, s, rfl, hleaf, halloc⟩
      · rw [if_neg hp0] at hrest
        obtain ⟨_, _, -, hlast⟩ := bind_ok.mp hrest
        cases hlast
  · obtain ⟨he, -⟩ := h.trees.follow_some hrt hl (pageindex_lt _ _) hfo
    rw [tableEntry_some he] at hrun
    cases hrun

-- ==== the loop

/-- The index the loop keeps determines the region. -/
theorem region_of_index
    (h : va' / 2 ^ 21 % 2 ^ 32 = va / 2 ^ 21 % 2 ^ 32) : region va' = region va := by
  unfold region
  omega

/-- The address of the next page, and of those after it. -/
theorem u64_next (va i : Nat) :
    u64 (u64 (va + 4096) + i * 4096) = u64 (va + (i + 1) * 4096) := by
  unfold u64
  omega

/-- The loop fails for want of a table only, as long as the table it
starts with is the one of the region it remembers. -/
theorem Tree.mapLoop_null (hf : FreshPages ok taken allocator)
    (hperm : perm < 4096) (hp : perm % 2 = 1) :
    ∀ n va pa last l4 s role s', Tree ok taken root role s →
      va < 2 ^ 64 → pa + n * 4096 ≤ 0x200000 →
      (va / 2 ^ 21 % 2 ^ 32 = last → l4 ≠ 0 ∧ l4 = tableAddr (leafTable s.mem root va)) →
      Kernel.mapLoop allocator (root * 4096) perm n va pa last l4 s
        = (.ok (-1), s') → Lacking allocator root va n s s' := by
  intro n
  induction n with
  | zero =>
    intro va pa last l4 s role s' _ _ _ _ hrun
    cases hrun
  | succ n ih =>
    intro va pa last l4 s role s' h hva hpa hcache hrun
    obtain ⟨l4', s1, hl4, hcase⟩ := mapLoop_round hrun
    obtain ⟨role1, h1, hg, hl4'⟩ := h.refresh hf (fun hl => (hcache hl).2) hl4
    have hkeep : ∀ a, leafTable s1.mem root a = none → leafTable s.mem root a = none := by
      intro a ha
      rcases hs : leafTable s.mem root a with - | t
      · rfl
      · rw [hg.keep a t hs] at ha
        cases ha
    rcases hcase with ⟨h0, -, -, rfl⟩ | ⟨s2, hrest, hs2⟩
    · -- the first page fails: it was looked up, since a cached table is not 0
      have hself : u64 (va + 0 * 4096) = va := by
        rw [Nat.zero_mul, Nat.add_zero, u64_of_lt hva]
      have hleaf : leafTable s'.mem root va = none := by
        rcases hl : leafTable s'.mem root va with - | t
        · rfl
        · have hrt := h1.trees.leafTable_some h1.root hl
          have := h1.inner t _ hrt (Nat.succ_pos 2)
          rw [hl, h0] at hl4'
          change 0 = t * 4096 at hl4'
          omega
      have hnew : va / 2 ^ 21 % 2 ^ 32 ≠ last := by
        intro hl
        obtain ⟨hne, -⟩ := hcache hl
        unfold refreshL4 at hl4
        rw [if_neg fun hx => hx hl] at hl4
        cases hl4
        exact hne h0
      unfold refreshL4 at hl4
      rw [if_pos hnew, h0] at hl4
      refine ⟨0, Nat.succ_pos n, ?_⟩
      rw [hself]
      obtain ⟨-, -, -, -, hnull⟩ := Tree.lookupFrom hf
        (fun hl h ht => h.tableEntry_null hl hp ht) 3 0 root s role 0 s' rfl h rfl hl4
      exact ⟨hkeep va hleaf, hleaf, hnull rfl⟩
    · obtain ⟨hne, hs2⟩ := hs2.resolve_left fun hx => by omega
      -- storing the entry changes no table
      rcases hleaf : leafTable s1.mem root va with - | t
      · rw [hleaf] at hl4'
        exact absurd hl4' hne
      rw [hleaf] at hl4'
      change l4' = t * 4096 at hl4'
      rw [if_pos hp, hl4'] at hs2
      obtain ⟨h2, htab, -⟩ := h1.store hf hleaf (by omega) hs2
      have hcache' : u64 (va + 4096) / 2 ^ 21 % 2 ^ 32 = va / 2 ^ 21 % 2 ^ 32 →
          l4' ≠ 0 ∧ l4' = tableAddr (leafTable s2.mem root (u64 (va + 4096))) := by
        intro hidx
        rw [leafTable_of_region (region_of_index hidx), htab, hleaf]
        exact ⟨hne, hl4'⟩
      obtain ⟨i, hi, hs, hs', href⟩ := ih (u64 (va + 4096)) (pa + 4096) _ l4' s2
        role1 s' h2 (Nat.mod_lt _ (by decide)) (by omega) hcache' hrest
      rw [u64_next] at hs hs' href
      rw [htab] at hs
      exact ⟨i + 1, by omega, hkeep _ hs, hs', href⟩

/-- Without `PTE_P` the loop never fails. -/
theorem mapLoop_even (hp : perm % 2 = 0) (pt : Nat) :
    ∀ n va pa last l4 s (r : Int) s',
      mapLoop allocator pt perm n va pa last l4 s = (.ok r, s') → r = 0 := by
  intro n
  induction n with
  | zero =>
    intro va pa last l4 s r s' hrun
    cases hrun
    rfl
  | succ n ih =>
    intro va pa last l4 s r s' hrun
    obtain ⟨l4', s1, -, ⟨-, hodd, -⟩ | ⟨s2, hrest, -⟩⟩ := mapLoop_round hrun
    · omega
    · exact ih _ _ _ _ s2 r s' hrest

-- ==== the call

/-- The cache does not get in the way: the index of the first page, cut
to 32 bits, is not the `-1` the loop starts with, or there is nothing to
look up. -/
def Seen (va sz perm : Nat) : Prop :=
  va / 2 ^ 21 % 2 ^ 32 ≠ 2 ^ 32 - 1 ∨ sz = 0 ∨ perm % 2 = 0

instance (va sz perm : Nat) : Decidable (Seen va sz perm) :=
  inferInstanceAs (Decidable (_ ∨ _ ∨ _))

/-- For every well-formed page table, every allocator of pages that are
not in use and all arguments that meet the assertions,
`virtual_memory_map` returns `-1` only for want of a table exactly if the
first page is not mistaken for one looked up before, or there is no
allocator and a table is missing indeed. -/
theorem map_fails_iff (hf : FreshPages ok taken allocator)
    (h : Tree ok taken root role s) (va pa sz perm : Nat) (hva : va < 2 ^ 64)
    (hpa : pa < 2 ^ 64) (hsz : sz < 2 ^ 64) (h1 : va % 4096 = 0)
    (h2 : sz % 4096 = 0) (h3 : va ≤ u64 (va + sz) ∨ u64 (va + sz) = 0)
    (h4 : perm % 2 = 1 → pa % 4096 = 0 ∧ pa ≤ u64 (pa + sz)
      ∧ u64 (pa + sz) ≤ 0x200000) (h5 : perm < 0x1000) :
    (∀ s', virtualMemoryMap (root * 4096) va pa sz perm allocator s
        = (.ok (-1), s') → Lacking allocator root va (sz / 4096) s s')
      ↔ Seen va sz perm ∨ Lacking allocator root va (sz / 4096) s s := by
  constructor
  · intro hall
    by_cases hseen : Seen va sz perm
    · exact .inl hseen
    · -- the call returns at once, and nothing has changed
      unfold Seen at hseen
      push Not at hseen
      obtain ⟨hidx, hsz0, hp⟩ := hseen
      obtain ⟨ha, hb, hc⟩ := h4 (by omega)
      have hphys : pa + sz ≤ 0x200000 := by
        unfold u64 at hb hc
        omega
      obtain ⟨n, hn⟩ : ∃ n, sz / 4096 = n + 1 := ⟨sz / 4096 - 1, by omega⟩
      refine .inr (hall s ?_)
      rw [virtualMemoryMap_loop h1 h2 h3 ha hphys h5 (Nat.mul_mod_left root 4096), hn]
      exact mapLoop_blind (by omega) hidx
  · intro hcase s' hrun
    obtain ⟨-, -, hphys, -, -, hloop⟩ := virtualMemoryMap_ok hsz hrun
    by_cases hp : perm % 2 = 1
    swap
    · have := mapLoop_even (by omega) _ _ _ _ _ _ _ _ _ hloop
      cases this
    by_cases hidx : va / 2 ^ 21 % 2 ^ 32 = 2 ^ 32 - 1
    · rcases hn : sz / 4096 with - | n
      · rw [hn] at hloop
        cases hloop
      rw [hn, mapLoop_blind hp hidx] at hloop
      cases hloop
      rcases hcase with hseen | hlack
      · unfold Seen at hseen
        omega
      · rw [← hn]
        exact hlack
    · refine Tree.mapLoop_null hf h5 hp _ va pa _ 0 s role s' h hva ?_
        (fun hx => absurd hx hidx) hloop
      have := (hphys hp).2
      omega

/-- An empty page table and no allocator: a failure as announced. -/
theorem map_fails_iff_empty :
    virtualMemoryMap 0x1000 0x3000 0x8000 0x1000 7 none oneTable
        = (.ok (-1), oneTable)
      ∧ Lacking none 1 0x3000 1 oneTable oneTable := by
  have hf : FreshPages (fun _ => True) Owned none :=
    ⟨fun _ _ _ => trivial, fun _ _ _ => Iff.rfl, fun _ hx => by cases hx⟩
  have hroot : Owned oneTable 1 := by
    show (oneTable.pageinfo 1).owner ≠ PO_FREE
    decide
  have htree : Tree (fun _ => True) Owned 1 _ oneTable :=
    Tree.empty trivial (fun _ _ _ => rfl) hroot
  have hrun : virtualMemoryMap 0x1000 0x3000 0x8000 0x1000 7 none oneTable
      = (.ok (-1), oneTable) := rfl
  exact ⟨hrun, (map_fails_iff hf htree 0x3000 0x8000 0x1000 7 (by decide)
    (by decide) (by decide) (by decide) (by decide) (by decide) (by decide)
    (by decide)).mpr (.inl (by decide)) oneTable hrun⟩

/-- The last page of the address space, after the page at `2^48 - 4096`,
which has the same walk, was mapped. The table is there, the allocator
has pages, and the call fails. -/
theorem map_fails_at_top :
    let alloc := some pagetableAlloc
    let s := (virtualMemoryMap 0x1000 (2 ^ 48 - 4096) 0x8000 0x1000 7 alloc oneTable).2
    FreshPages (fun s => s.cur.pid = 1) Owned alloc
      ∧ (∃ role, Tree (fun s => s.cur.pid = 1) Owned 1 role s)
      ∧ leafTable s.mem 1 (2 ^ 64 - 4096) = some 4
      ∧ (pagetableAlloc s).1.toOption = some 0x5000
      ∧ (virtualMemoryMap 0x1000 (2 ^ 64 - 4096) 0x8000 0x1000 7 alloc s).1.toOption
        = some (-1) := by
  intro alloc s
  have hf : FreshPages (fun s => s.cur.pid = 1) Owned alloc :=
    pagetableAlloc_fresh (by decide)
  have hroot : Owned oneTable 1 := by
    show (oneTable.pageinfo 1).owner ≠ PO_FREE
    decide
  have hs : virtualMemoryMap (1 * 4096) (2 ^ 48 - 4096) 0x8000 0x1000 7 alloc
      oneTable = (.ok 0, s) := eq_of_toOption (by decide +kernel)
  have hcur : (fun s : KState => s.cur.pid = 1) oneTable := rfl
  obtain ⟨role, htree, -⟩ := (Tree.empty hcur (fun _ _ _ => rfl) hroot).map hf
    (by decide) hs
  exact ⟨hf, ⟨role, htree⟩, by decide +kernel, by decide +kernel, by decide +kernel⟩

end RojocOS.Kernel
