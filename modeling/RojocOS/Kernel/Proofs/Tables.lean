/-
Page tables as trees.

# The ghost map

What makes a page of physical memory part of a page table is not written
in the page. `Roles` says it: `role pn = some ⟨o, l, pre⟩` when page `pn`
is the level-`l` table that the tree of owner `o` uses for the addresses
whose index prefix is `pre`. Since `role` is a function, a page has one
place in one tree: no table is shared between trees or reached along two
paths, which is what keeps a store for one address from showing at
another (`leafEntry_store`).

# Walking

`Trees m role` says that the upper levels of every tree are well formed:
an entry is zero or names, with the flags `P|W|U`, a page one level down
in the place that the index gives it. `leafEntry` is then all there is to
know about a tree: `virtual_memory_lookup` reads it
(`virtualMemoryLookup_eq`), and a mapping writes it
(`virtualMemoryMap_one`).
-/
import RojocOS.Kernel.Vm

namespace RojocOS.Kernel

open ByteMap Prog

variable {m m' : ByteMap} {c i level n pe pt t v e f i' l pe' pn pre sz t' va' x : Nat}
  {alloc : Option (KM Nat)}
variable {o : Int} {role : Roles} {root va : Nat}

/-- A place in a page-table tree. -/
structure Place where
  owner : Int
  level : Nat
  pre : Nat
  deriving DecidableEq, Repr

/-- Which pages are page tables, and where in which tree. -/
abbrev Roles := Nat → Option Place

/-- The upper levels of all trees are well formed. -/
structure Trees (m : ByteMap) (role : Roles) : Prop where
  upper : ∀ pn o l pre, role pn = some ⟨o, l, pre⟩ → l < 3 →
    ∀ i, i < 512 → getEntry m (pn * 4096) i = 0
      ∨ ∃ c, getEntry m (pn * 4096) i = c * 4096 + 7
          ∧ role c = some ⟨o, l + 1, pre * 512 + i⟩

/-- The trees of the kernel, whose pages are all in physical memory. -/
structure Tables (m : ByteMap) (role : Roles) : Prop extends Trees m role where
  low : ∀ pn p, role pn = some p → pn < 512

-- ==== indices

theorem pageindex_lt (va level : Nat) : pageindex va level < 512 :=
  Nat.mod_lt _ (by decide)

theorem pageindex_zero (va : Nat) : pageindex va 0 = va / 2 ^ 39 % 512 := rfl

theorem pageindex_one (va : Nat) : pageindex va 1 = va / 2 ^ 30 % 512 := rfl

theorem pageindex_two (va : Nat) : pageindex va 2 = va / 2 ^ 21 % 512 := rfl

theorem pageindex_three (va : Nat) : pageindex va 3 = va / 4096 % 512 := rfl

/-- The three upper indices together are bits 21 to 47. -/
theorem pageindex_prefix (va : Nat) :
    ((0 * 512 + pageindex va 0) * 512 + pageindex va 1) * 512
      + pageindex va 2 = va / 2 ^ 21 % 2 ^ 27 := by
  have h0 : va / 2 ^ 39 = va / 2 ^ 21 / 262144 := by omega
  have h1 : va / 2 ^ 30 = va / 2 ^ 21 / 512 := by omega
  rw [pageindex_zero, pageindex_one, pageindex_two, h0, h1]
  generalize va / 2 ^ 21 = x
  omega

-- ==== entries

theorem getEntry_congr (h : ∀ x, pt ≤ x → x < pt + 4096 → m' x = m x) (hi : i < 512) :
    getEntry m' pt i = getEntry m pt i :=
  load_congr fun x h1 h2 => h x (by omega) (by omega)

theorem getEntry_store_same (hv : v < 2 ^ 64) :
    getEntry (store m (pt + 8 * i) 8 v) pt i = v := by
  unfold getEntry
  rw [load_store_of_lt (by omega)]

/-- A store to one entry leaves the other entries of all tables. -/
theorem getEntry_store_other (hi : i < 512) (hi' : i' < 512) (h : t ≠ t' ∨ i ≠ i') :
    getEntry (store m (t * 4096 + 8 * i) 8 v) (t' * 4096) i'
      = getEntry m (t' * 4096) i' := by
  refine load_store_of_disjoint ?_
  rcases h with h | h
  · rcases Nat.lt_or_gt_of_ne h with h | h
    · omega
    · omega
  · by_cases ht : t = t'
    · subst ht
      omega
    · rcases Nat.lt_or_gt_of_ne ht with h | h
      · omega
      · omega

-- ==== the walk

/-- The table an upper entry names. -/
def follow (m : ByteMap) (t i : Nat) : Option Nat :=
  if getEntry m (t * 4096) i = 0 then none
  else some (getEntry m (t * 4096) i / 4096)

/-- The last-level table of `va`, as a page number. -/
def leafTable (m : ByteMap) (root va : Nat) : Option Nat :=
  (follow m root (pageindex va 0)).bind fun t₁ =>
    (follow m t₁ (pageindex va 1)).bind fun t₂ =>
      follow m t₂ (pageindex va 2)

/-- The last-level entry of `va`, zero where there is no table. -/
def leafEntry (m : ByteMap) (root va : Nat) : Nat :=
  match leafTable m root va with
  | none => 0
  | some t => getEntry m (t * 4096) (pageindex va 3)

section Walk

theorem Trees.follow_some (ht : Trees m role)
    (hr : role t = some ⟨o, l, pre⟩) (hl : l < 3) (hi : i < 512)
    (hf : follow m t i = some c) :
    getEntry m (t * 4096) i = c * 4096 + 7
      ∧ role c = some ⟨o, l + 1, pre * 512 + i⟩ := by
  unfold follow at hf
  rcases ht.upper t o l pre hr hl i hi with h0 | ⟨c', hc', hrc⟩
  · rw [if_pos h0] at hf
    cases hf
  · rw [if_neg (by omega), hc'] at hf
    injection hf with hf
    have : c' = c := by omega
    subst this
    exact ⟨hc', hrc⟩

theorem follow_none (hf : follow m t i = none) : getEntry m (t * 4096) i = 0 := by
  unfold follow at hf
  by_contra hne
  rw [if_neg hne] at hf
  cases hf

/-- The three steps of a walk that reaches a last-level table. -/
theorem Trees.leafTable_some (ht : Trees m role) (hr : role root = some ⟨o, 0, 0⟩)
    (h : leafTable m root va = some t) : role t = some ⟨o, 3, va / 2 ^ 21 % 2 ^ 27⟩ := by
  unfold leafTable at h
  obtain ⟨t1, h1, h⟩ := Option.bind_eq_some_iff.mp h
  obtain ⟨t2, h2, h3⟩ := Option.bind_eq_some_iff.mp h
  obtain ⟨-, hr1⟩ := ht.follow_some hr (by omega) (pageindex_lt _ _) h1
  obtain ⟨-, hr2⟩ := ht.follow_some hr1 (by omega) (pageindex_lt _ _) h2
  obtain ⟨-, hr3⟩ := ht.follow_some hr2 (by omega) (pageindex_lt _ _) h3
  rw [hr3, pageindex_prefix]

-- ==== lookup

/-- Below an entry with all three flags, `PTE_W` and `PTE_U` are
masked out. -/
theorem maskFlags_masked (c : Nat) (hpe : pe % 8 = 7) :
    maskFlags (c * 4096 + 7) pe = c * 4096 + 1 := by
  unfold maskFlags
  rw [if_pos (by omega), if_pos (by omega)]
  omega

/-- Below a masked entry nothing is. -/
theorem maskFlags_open (e : Nat) (hpe : pe % 8 = 1) : maskFlags e pe = e := by
  unfold maskFlags
  rw [if_neg (by omega), if_neg (by omega)]
  rfl

theorem maskFlags_zero (pe : Nat) : maskFlags 0 pe = 0 := by
  unfold maskFlags
  split <;> split <;> rfl

theorem pteAddr_page (c : Nat) (hf : f < 4096) : pteAddr (c * 4096 + f) = c * 4096 := by
  unfold pteAddr
  omega

/-- A present entry takes the loop one level down. -/
theorem lookupLoop_step (hpe : pe % 2 = 1)
    (he : getEntry m pt (pageindex va level) = e) (hm : maskFlags e pe = pe') :
    lookupLoop m va (n + 1) level pt pe
      = lookupLoop m va n (level + 1) (pteAddr pe') pe' := by
  subst hm he
  exact if_pos hpe

/-- A missing one ends it. -/
theorem lookupLoop_zero : lookupLoop m va n level pt 0 = 0 := by
  cases n with
  | zero => rfl
  | succ n => exact if_neg (by decide)

/-- The flag masking of `virtual_memory_lookup` alternates from level to
level and comes out right: what it returns is the last-level entry as it
is. -/
theorem Trees.lookupLoop_eq (ht : Trees m role) (hr : role root = some ⟨o, 0, 0⟩) :
    lookupLoop m va 4 0 (root * 4096) 7 = leafEntry m root va := by
  unfold leafEntry leafTable
  rcases h1 : follow m root (pageindex va 0) with - | t1
  · rw [lookupLoop_step (by decide) (follow_none h1) (maskFlags_zero _), lookupLoop_zero]
    rfl
  obtain ⟨he1, hr1⟩ := ht.follow_some hr (by omega) (pageindex_lt _ _) h1
  rw [lookupLoop_step (by decide) he1 (maskFlags_masked _ (by decide)),
    pteAddr_page _ (by omega)]
  rw [Option.bind_some]
  rcases h2 : follow m t1 (pageindex va 1) with - | t2
  · rw [lookupLoop_step (by omega) (follow_none h2) (maskFlags_zero _), lookupLoop_zero]
    rfl
  obtain ⟨he2, hr2⟩ := ht.follow_some hr1 (by omega) (pageindex_lt _ _) h2
  rw [lookupLoop_step (by omega) he2 (maskFlags_open _ (by omega)),
    pteAddr_page _ (by omega)]
  rw [Option.bind_some]
  rcases h3 : follow m t2 (pageindex va 2) with - | t3
  · rw [lookupLoop_step (by omega) (follow_none h3) (maskFlags_zero _), lookupLoop_zero]
  obtain ⟨he3, hr3⟩ := ht.follow_some hr2 (by omega) (pageindex_lt _ _) h3
  rw [lookupLoop_step (by omega) he3 (maskFlags_masked _ (by omega)),
    pteAddr_page _ (by omega)]
  rw [lookupLoop_step (by omega) rfl (maskFlags_open _ (by omega))]
  rfl

/-- `virtual_memory_lookup` in terms of the last-level entry. -/
theorem Trees.virtualMemoryLookup_eq (ht : Trees m role)
    (hr : role root = some ⟨o, 0, 0⟩) :
    virtualMemoryLookup m (root * 4096) va
      = if leafEntry m root va % 2 = 1 then
          { pn := i32 (leafEntry m root va / 4096)
            pa := pteAddr (leafEntry m root va) + va % 4096
            perm := leafEntry m root va % 4096 }
        else { pn := -1, pa := 2 ^ 64 - 1, perm := 0 } := by
  unfold virtualMemoryLookup
  dsimp only
  rw [ht.lookupLoop_eq hr]

-- ==== frames

/-- The trees are in their own pages: memory that agrees on the upper
levels has the same trees. -/
theorem Trees.congr (ht : Trees m role)
    (h : ∀ pn p, role pn = some p → p.level < 3 →
      ∀ x, pn * 4096 ≤ x → x < pn * 4096 + 4096 → m' x = m x) :
    Trees m' role := by
  refine ⟨fun pn o l pre hr hl i hi => ?_⟩
  rw [getEntry_congr (h pn _ hr hl) hi]
  exact ht.upper pn o l pre hr hl i hi

theorem Tables.congr (ht : Tables m role)
    (h : ∀ pn p, role pn = some p → p.level < 3 →
      ∀ x, pn * 4096 ≤ x → x < pn * 4096 + 4096 → m' x = m x) :
    Tables m' role :=
  ⟨ht.toTrees.congr h, ht.low⟩

theorem follow_congr (hi : i < 512)
    (h : ∀ x, t * 4096 ≤ x → x < t * 4096 + 4096 → m' x = m x) :
    follow m' t i = follow m t i := by
  unfold follow
  rw [getEntry_congr h hi]

/-- A tree is in the pages of its owner's tables. -/
theorem Trees.leafTable_congr (ht : Trees m role) (hr : role root = some ⟨o, 0, 0⟩)
    (h : ∀ pn l pre, role pn = some ⟨o, l, pre⟩ → l < 3 →
      ∀ x, pn * 4096 ≤ x → x < pn * 4096 + 4096 → m' x = m x) :
    leafTable m' root va = leafTable m root va := by
  unfold leafTable
  rw [follow_congr (pageindex_lt _ _) (h root _ _ hr (by omega))]
  rcases h1 : follow m root (pageindex va 0) with - | t1
  · rw [Option.bind_none, Option.bind_none]
  obtain ⟨-, hr1⟩ := ht.follow_some hr (by omega) (pageindex_lt _ _) h1
  rw [Option.bind_some, Option.bind_some,
    follow_congr (pageindex_lt _ _) (h t1 _ _ hr1 (by omega))]
  rcases h2 : follow m t1 (pageindex va 1) with - | t2
  · rw [Option.bind_none, Option.bind_none]
  obtain ⟨-, hr2⟩ := ht.follow_some hr1 (by omega) (pageindex_lt _ _) h2
  rw [Option.bind_some, Option.bind_some,
    follow_congr (pageindex_lt _ _) (h t2 _ _ hr2 (by omega))]

theorem Trees.leafEntry_congr (ht : Trees m role) (hr : role root = some ⟨o, 0, 0⟩)
    (h : ∀ pn l pre, role pn = some ⟨o, l, pre⟩ →
      ∀ x, pn * 4096 ≤ x → x < pn * 4096 + 4096 → m' x = m x) :
    leafEntry m' root va = leafEntry m root va := by
  have hleaf : leafTable m' root va = leafTable m root va :=
    ht.leafTable_congr hr fun pn l pre hp _ => h pn l pre hp
  unfold leafEntry
  rw [hleaf]
  rcases ht' : leafTable m root va with - | t
  · rfl
  · exact getEntry_congr (h t _ _ (ht.leafTable_some hr ht')) (pageindex_lt _ _)

-- ==== a leaf store

section Store

variable {pre : Nat} {o' : Int}

theorem store_page (hi : i < 512) (hne : pn ≠ t)
    (h1 : pn * 4096 ≤ x) (h2 : x < pn * 4096 + 4096) :
    store m (t * 4096 + 8 * i) 8 v x = m x := by
  refine store_of_not_mem fun h => hne ?_
  omega

theorem Trees.store_leaf (ht : Trees m role)
    (hr : role t = some ⟨o', 3, pre⟩) (hi : i < 512) :
    Trees (store m (t * 4096 + 8 * i) 8 v) role := by
  refine ht.congr fun pn p hp hl x h1 h2 => store_page hi ?_ h1 h2
  rintro rfl
  rw [hr] at hp
  cases hp
  exact absurd hl (Nat.lt_irrefl 3)

/-- Last-level entries lead nowhere. -/
theorem Trees.leafTable_store (ht : Trees m role)
    (hrt : role t = some ⟨o', 3, pre⟩) (hi : i < 512) (hr : role root = some ⟨o, 0, 0⟩) :
    leafTable (store m (t * 4096 + 8 * i) 8 v) root va = leafTable m root va := by
  refine ht.leafTable_congr hr fun pn l pre hp hl x h1 h2 =>
    store_page hi ?_ h1 h2
  rintro rfl
  rw [hrt] at hp
  cases hp
  exact absurd hl (Nat.lt_irrefl 3)

/-- A store to a last-level entry shows at the addresses that walk to
this entry, and nowhere else. -/
theorem Trees.leafEntry_store (ht : Trees m role)
    (hrt : role t = some ⟨o', 3, pre⟩) (hi : i < 512) (hv : v < 2 ^ 64)
    (hr : role root = some ⟨o, 0, 0⟩) :
    leafEntry (store m (t * 4096 + 8 * i) 8 v) root va
      = if leafTable m root va = some t ∧ pageindex va 3 = i then v
        else leafEntry m root va := by
  unfold leafEntry
  rw [ht.leafTable_store hrt hi hr]
  rcases ht' : leafTable m root va with - | t'
  · rw [if_neg fun h => by cases h.1]
  · by_cases h : t' = t ∧ pageindex va 3 = i
    · obtain ⟨rfl, h3⟩ := h
      rw [if_pos ⟨rfl, h3⟩]
      dsimp only
      rw [h3, getEntry_store_same hv]
    · rw [if_neg fun hh => h ⟨Option.some.inj hh.1, hh.2⟩]
      refine getEntry_store_other hi (pageindex_lt _ _) ?_
      by_cases htt : t = t'
      · exact .inr fun h3 => h ⟨htt.symm, h3.symm⟩
      · exact .inl htt

/-- Two addresses with the same last-level entry are the same page. -/
theorem Trees.leafTable_inj (ht : Trees m role) (hr : role root = some ⟨o, 0, 0⟩)
    (h : leafTable m root va = some t) (h' : leafTable m root va' = some t)
    (hi : pageindex va 3 = pageindex va' 3) :
    va / 4096 % 2 ^ 36 = va' / 4096 % 2 ^ 36 := by
  have h1 : va' / 2 ^ 21 % 2 ^ 27 = va / 2 ^ 21 % 2 ^ 27 :=
    congrArg Place.pre (Option.some.inj
      ((ht.leafTable_some hr h').symm.trans (ht.leafTable_some hr h)))
  have e : ∀ x : Nat, x / 2 ^ 21 = x / 4096 / 512 := fun x => by
    omega
  rw [e, e] at h1
  rw [pageindex_three, pageindex_three] at hi
  generalize va / 4096 = x at *
  generalize va' / 4096 = y at *
  omega

end Store

end Walk

-- ==== mapping without tables

section Map

variable {s : KState} {pa perm : Nat}

/-- `tableEntry` on an entry that is there. -/
theorem tableEntry_some (h : getEntry s.mem pt i = c * 4096 + 7) :
    tableEntry alloc perm pt i s = (.ok (some (c * 4096 + 7)), s) := by
  unfold tableEntry
  rw [get_bind, h, if_pos (by omega)]
  rfl

theorem tableEntry_none (h : getEntry s.mem pt i = 0) :
    tableEntry none perm pt i s = (.ok none, s) := by
  unfold tableEntry
  rw [get_bind, h, if_neg (by decide)]
  rfl

/-- One level down, through an entry that is there. -/
theorem lookupFrom_some (hc : c < 512)
    (h : getEntry s.mem pt (pageindex va level) = c * 4096 + 7) :
    lookupFrom alloc perm va (n + 1) level pt s
      = lookupFrom alloc perm va n (level + 1) (c * 4096) s := by
  have haddr : pteAddr (c * 4096 + 7) = c * 4096 := pteAddr_page c (by omega)
  rw [lookupFrom, bind_of_ok (tableEntry_some h)]
  dsimp only
  rw [haddr, assert_bind (by omega), assert_bind fun _ => by omega,
    assert_bind fun _ => by omega]

theorem lookupFrom_none (h : getEntry s.mem pt (pageindex va level) = 0) :
    lookupFrom none perm va (n + 1) level pt s = (.ok 0, s) := by
  rw [lookupFrom, bind_of_ok (tableEntry_none h)]
  rfl

/-- Without an allocator, `lookup_l4pagetable` finds what is there. -/
theorem Tables.lookupL4pagetable_eq (ht : Tables s.mem role)
    (hr : role root = some ⟨o, 0, 0⟩) :
    lookupL4pagetable none (root * 4096) va perm s
      = (.ok (match leafTable s.mem root va with
          | none => 0
          | some t => t * 4096), s) := by
  unfold lookupL4pagetable leafTable
  rcases h1 : follow s.mem root (pageindex va 0) with - | t1
  · rw [lookupFrom_none (follow_none h1)]
    rfl
  obtain ⟨he1, hr1⟩ := ht.follow_some hr (by omega) (pageindex_lt _ _) h1
  rw [lookupFrom_some (ht.low _ _ hr1) he1, Option.bind_some]
  rcases h2 : follow s.mem t1 (pageindex va 1) with - | t2
  · rw [lookupFrom_none (follow_none h2)]
    rfl
  obtain ⟨he2, hr2⟩ := ht.follow_some hr1 (by omega) (pageindex_lt _ _) h2
  rw [lookupFrom_some (ht.low _ _ hr2) he2, Option.bind_some]
  rcases h3 : follow s.mem t2 (pageindex va 2) with - | t3
  · rw [lookupFrom_none (follow_none h3)]
  obtain ⟨he3, hr3⟩ := ht.follow_some hr2 (by omega) (pageindex_lt _ _) h3
  rw [lookupFrom_some (ht.low _ _ hr3) he3]
  rfl

/-- The assertions of `virtual_memory_map`, and what is left after
them. -/
theorem virtualMemoryMap_loop (h1 : va % 4096 = 0) (h2 : sz % 4096 = 0)
    (h3 : va ≤ u64 (va + sz) ∨ u64 (va + sz) = 0)
    (h4 : pa % 4096 = 0) (h5 : pa + sz ≤ 0x200000)
    (h6 : perm < 4096) (h7 : pt % 4096 = 0) :
    virtualMemoryMap pt va pa sz perm alloc s
      = mapLoop alloc pt perm (sz / 4096) va pa (2 ^ 32 - 1) 0 s := by
  have hu : u64 (pa + sz) = pa + sz := Nat.mod_eq_of_lt (by omega)
  unfold virtualMemoryMap
  rw [assert_bind h1, assert_bind h2, assert_bind h3, assert_bind fun _ => h4,
    assert_bind fun _ => by omega, assert_bind fun _ => by omega,
    assert_bind h6, assert_bind h7]

/-- The initial `-1` of the cache: the first page is not looked up. -/
theorem mapLoop_blind (hp : perm % 2 = 1) (hidx : va / 2 ^ 21 % 2 ^ 32 = 2 ^ 32 - 1) :
    mapLoop alloc pt perm (n + 1) va pa (2 ^ 32 - 1) 0 s = (.ok (-1), s) := by
  have hl4 : refreshL4 alloc pt va perm (2 ^ 32 - 1) 0 s = (.ok 0, s) := by
    unfold refreshL4
    rw [if_neg fun hne => hne hidx]
    rfl
  rw [mapLoop, bind_of_ok hl4, if_neg fun h => h.2 rfl, if_neg fun h => h rfl, if_pos hp]
  rfl

section OnePage

variable (ht : Tables s.mem role) (hr : role root = some ⟨o, 0, 0⟩)
  (h1 : va % 4096 = 0) (h64 : va < 2 ^ 64) (h4 : pa % 4096 = 0)
  (h5 : pa + 4096 ≤ 0x200000) (h6 : perm < 4096)

include h1 h64 h4 h5 h6

/-- One page is one turn of the loop. -/
theorem virtualMemoryMap_turn : virtualMemoryMap (root * 4096) va pa 4096 perm alloc s
    = mapLoop alloc (root * 4096) perm 1 va pa (2 ^ 32 - 1) 0 s := by
  have hnw : va ≤ u64 (va + 4096) ∨ u64 (va + 4096) = 0 := by
    unfold u64
    omega
  exact virtualMemoryMap_loop h1 (by decide) hnw h4 h5 h6 (by omega)

include ht hr

/-- Mapping one page in a tree that has the tables for it. -/
theorem Tables.virtualMemoryMap_one (hp : perm % 2 = 1)
    (hidx : va / 2 ^ 21 % 2 ^ 32 ≠ 2 ^ 32 - 1)
    (hleaf : leafTable s.mem root va = some t) (ht0 : t ≠ 0) :
    virtualMemoryMap (root * 4096) va pa 4096 perm none s
      = (.ok 0, { s with
          mem := store s.mem (t * 4096 + 8 * pageindex va 3) 8 (pa + perm) }) := by
  have hl4 : refreshL4 none (root * 4096) va perm (2 ^ 32 - 1) 0 s
      = (.ok (t * 4096), s) := by
    unfold refreshL4
    rw [if_pos hidx, ht.lookupL4pagetable_eq hr, hleaf]
  rw [virtualMemoryMap_turn h1 h64 h4 h5 h6, mapLoop, bind_of_ok hl4,
    if_pos ⟨hp, by omega⟩]
  rfl

/-- Without the tables, nothing is mapped. -/
theorem Tables.virtualMemoryMap_none (hp : perm % 2 = 1)
    (hleaf : va / 2 ^ 21 % 2 ^ 32 = 2 ^ 32 - 1 ∨ leafTable s.mem root va = none) :
    virtualMemoryMap (root * 4096) va pa 4096 perm none s = (.ok (-1), s) := by
  rw [virtualMemoryMap_turn h1 h64 h4 h5 h6]
  by_cases hidx : va / 2 ^ 21 % 2 ^ 32 = 2 ^ 32 - 1
  · exact mapLoop_blind hp hidx
  have hl4 : refreshL4 none (root * 4096) va perm (2 ^ 32 - 1) 0 s = (.ok 0, s) := by
    unfold refreshL4
    rw [if_pos hidx, ht.lookupL4pagetable_eq hr, hleaf.resolve_left hidx]
  rw [mapLoop, bind_of_ok hl4, if_neg fun h => h.2 rfl, if_neg fun h => h rfl, if_pos hp]
  rfl

end OnePage

end Map

end RojocOS.Kernel
