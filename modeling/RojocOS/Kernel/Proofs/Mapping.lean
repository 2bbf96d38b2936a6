/-
Page tables as a map.

`virtual_memory_map` with any allocator, over any range: the translations
inside the range become the ones asked for, those outside stay. The
kernel's own use of it (Build.lean) is one region at a time, with
`page_alloc`; here the range may cross regions, `perm` may lack `PTE_P`,
the allocator is a parameter, and a call may run out of tables half way.

# The allocator

`FreshPages ok taken allocator` is all that is asked: a ghost predicate says
which pages are in use, a page that is handed out was not in use before
and is from then on, and pages in use are left alone.
`pageAlloc_fresh` is the instance that the kernel has.

# One page at a time

`Tree` is the invariant: the tables reached from the root form a tree
and are in use. A round of the loop keeps it and changes one
translation (`Tree.mapPage`), so a call changes those of its range
(`Tree.mapLoop`). Linking a table changes none (`Grown`).

# Addresses

A walk reads bits 12 to 47. Two addresses that differ above bit 47 are
the same page to it.
-/
import RojocOS.Kernel.Proofs.Build

namespace RojocOS.Kernel

open ByteMap Prog

variable {s s1 s2 : KState} {o r : Int}
  {c l l4 last pa perm pt sz t va i n pn pre root v x : Nat} {role role1 : Roles}
variable {allocator : Option (KM Nat)} {ok : KState → Prop} {s' : KState}
  {taken : KState → Nat → Prop}

-- ==== the allocator

/-- Page `p` (0: none) was handed out; `taken s pn` says that page `pn` is
in use, `ok` is the allocator's own invariant. -/
structure Handed (ok : KState → Prop) (taken : KState → Nat → Prop) (s : KState)
    (p : Nat) (s' : KState) : Prop where
  ok : ok s'
  fresh : p ≠ 0 → ¬ taken s (p / 4096) ∧ taken s' (p / 4096)
  stay : ∀ pn, taken s pn → taken s' pn
  keep : ∀ x, taken s (x / 4096) → s'.mem x = s.mem x

/-- What a mapping may assume of its allocator, if it has one. -/
structure FreshPages (ok : KState → Prop) (taken : KState → Nat → Prop)
    (allocator : Option (KM Nat)) : Prop where
  write : ∀ s m, ok s → ok { s with mem := m }
  ghost : ∀ s m pn, taken { s with mem := m } pn ↔ taken s pn
  hands : ∀ alloc, allocator = some alloc → ∀ s p s', ok s →
    alloc s = (.ok p, s') → Handed ok taken s p s'

/-- Pages with an owner are in use. -/
def Owned (s : KState) (pn : Nat) : Prop := (s.pageinfo pn).owner ≠ PO_FREE

theorem takePage_owned (ho : o ≠ 0)
    (h : Owned s pn ∨ pn = s.pageno) : Owned (takePage o s) pn := by
  unfold Owned takePage
  by_cases hpn : pn = s.pageno
  · simp [hpn, ho, PO_FREE]
  · simp only [if_neg hpn]
    exact h.resolve_right hpn

theorem takePage_mem (h : x / 4096 ≠ s.pageno) : (takePage o s).mem x = s.mem x :=
  fill_of_not_mem fun hin => h (by omega)

/-- The scan of `page_alloc` stops at a page without an owner. -/
theorem pageAllocLoop_hands (ho : o ≠ 0) :
    ∀ n s p s', s.cur.pid = o → pageAllocLoop o n s = (.ok p, s') →
      Handed (fun s => s.cur.pid = o) Owned s p s' := by
  intro n
  induction n with
  | zero =>
    intro s p s' hcur h
    cases h
    exact ⟨hcur, fun hp => absurd rfl hp, fun _ h => h, fun _ _ => rfl⟩
  | succ n ih =>
    intro s p s' hcur h
    by_cases hfree : (s.pageinfo s.pageno).owner = PO_FREE
    · rw [pageAllocLoop, get_bind, if_pos hfree] at h
      cases h
      have hdiv : s.pageno * 4096 / 4096 = s.pageno :=
        Nat.mul_div_cancel _ (by decide)
      refine ⟨hcur, fun _ => ?_, fun pn hpn => takePage_owned ho (.inl hpn),
        fun x hx => takePage_mem fun hxp => ?_⟩
      · rw [hdiv]
        exact ⟨fun hown => hown hfree, takePage_owned ho (.inr rfl)⟩
      · rw [hxp] at hx
        exact hx hfree
    · rw [pageAllocLoop, get_bind, if_neg hfree] at h
      obtain ⟨h1, h2, h3, h4⟩ :=
        ih { s with pageno := (s.pageno + 1) % 512 } p s' hcur h
      exact ⟨h1, h2, h3, h4⟩

/-- `pagetable_alloc` is such an allocator, while the current process has
a number. -/
theorem pagetableAlloc_fresh (ho : o ≠ 0) :
    FreshPages (fun s => s.cur.pid = o) Owned (some pagetableAlloc) := by
  refine ⟨fun _ _ h => h, fun _ _ _ => Iff.rfl, ?_⟩
  intro alloc halloc s p s' hcur h
  cases halloc
  rw [pagetableAlloc_eq hcur] at h
  exact pageAllocLoop_hands ho 512 s p s' hcur h

-- ==== the tree

/-- The tables of one page table form a tree of pages in use. -/
structure Tree (ok : KState → Prop) (taken : KState → Nat → Prop) (root : Nat)
    (role : Roles) (s : KState) : Prop where
  ok : ok s
  trees : Trees s.mem role
  root : role root = some ⟨0, 0, 0⟩
  taken : ∀ pn p, role pn = some p → taken s pn
  inner : ∀ pn p, role pn = some p → 0 < p.level → pn ≠ 0

section Tree

variable {root : Nat} {role : Roles}

/-- A cleared page is a tree without translations. -/
theorem Tree.empty (hok : ok s)
    (hz : ∀ x, root * 4096 ≤ x → x < root * 4096 + 4096 → s.mem x = 0)
    (ht : taken s root) :
    Tree ok taken root (fun pn => if pn = root then some ⟨0, 0, 0⟩ else none) s := by
  refine ⟨hok, ⟨fun pn o l pre hr hl i hi => .inl ?_⟩, if_pos rfl, fun pn p hr => ?_,
    fun pn p hr hl => ?_⟩
  · split at hr
    · rename_i hpn
      subst hpn
      refine load_eq_zero.mpr fun x h1 h2 => hz x ?_ ?_
      · exact Nat.le_trans (Nat.le_add_right _ _) h1
      · omega
    · cases hr
  · split at hr
    · rename_i hpn
      exact hpn ▸ ht
    · cases hr
  · split at hr
    · cases hr
      exact absurd hl (Nat.lt_irrefl 0)
    · cases hr

/-- What leaves the pages in use alone leaves the tree alone. -/
theorem Tree.frame (h : Tree ok taken root role s) (hok : ok s')
    (hstay : ∀ pn, taken s pn → taken s' pn)
    (hkeep : ∀ x, taken s (x / 4096) → s'.mem x = s.mem x) :
    Tree ok taken root role s'
      ∧ (∀ va l, l ≤ 3 → reach s'.mem root va l = reach s.mem root va l)
      ∧ ∀ va, Grown s.mem root va s'.mem := by
  have hpage : ∀ pn p, role pn = some p → ∀ x, pn * 4096 ≤ x →
      x < pn * 4096 + 4096 → s'.mem x = s.mem x := by
    intro pn p hp x h1 h2
    refine hkeep x ?_
    rw [show x / 4096 = pn by omega]
    exact h.taken pn p hp
  have htab : ∀ va, leafTable s'.mem root va = leafTable s.mem root va := fun va =>
    h.trees.leafTable_congr h.root fun pn l pre hp _ => hpage pn _ hp
  refine ⟨⟨hok, h.trees.congr fun pn p hp _ => hpage pn p hp, h.root,
    fun pn p hp => hstay pn (h.taken pn p hp), h.inner⟩, fun va l => ?_,
    fun va => ⟨fun va' => ?_, fun va' _ => htab va', fun va' t ht => ?_⟩⟩
  rotate_left
  · exact h.trees.leafEntry_congr h.root fun pn l pre hp => hpage pn _ hp
  · exact (htab va').trans ht
  induction l with
  | zero => exact fun _ => rfl
  | succ l ih =>
    intro hl
    have ih := ih (by omega)
    rcases hu : reach s.mem root va l with - | t
    · rw [reach_succ_none hu, reach_succ_none (ih.trans hu)]
    · rw [reach_succ_some hu, reach_succ_some (ih.trans hu)]
      exact follow_congr (pageindex_lt _ _)
        (hpage t _ (h.trees.reach_role h.root (by omega) hu))

/-- A page that is not part of the tree becomes a table below `t`. -/
theorem Tree.link (h : Tree ok taken root role s) (hok : ok s')
    (hrt : role t = some ⟨0, l, pre⟩) (hi : i < 512) (hcr : role c = none)
    (hs : taken s' c) (hstay : ∀ pn, taken s pn → taken s' pn) (hc0 : c ≠ 0)
    (hlink : Linked s.mem t i c s'.mem) :
    Tree ok taken root (role.add c ⟨0, l + 1, pre * 512 + i⟩) s' := by
  have hroot : root ≠ c := by
    intro hrc
    have := h.root
    rw [hrc, hcr] at this
    cases this
  refine ⟨hok, hlink.trees h.trees hrt hi hcr, ?_, ?_, ?_⟩
  · rw [Roles.add_other hroot]
    exact h.root
  · intro pn p hp
    by_cases hpc : pn = c
    · exact hpc ▸ hs
    · rw [Roles.add_other hpc] at hp
      exact hstay pn (h.taken pn p hp)
  · intro pn p hp hlev
    by_cases hpc : pn = c
    · exact hpc ▸ hc0
    · rw [Roles.add_other hpc] at hp
      exact h.inner pn p hp hlev

-- ==== the lookup

/-- One level of `lookup_l4pagetable`: the table is there, is added, or
stays missing. -/
theorem Tree.tableEntry (hf : FreshPages ok taken allocator) (h : Tree ok taken root role s)
    (hl : l < 3) (ht : reach s.mem root va l = some t) {r : Option Nat}
    (hrun : tableEntry allocator perm (t * 4096) (pageindex va l) s = (.ok r, s'))
    (hlow : ∀ pe, r = some pe → pteAddr pe < 0x200000) :
    ∃ role', Tree ok taken root role' s' ∧ Grown s.mem root va s'.mem
      ∧ (∀ j, l + 1 < j → j ≤ 3 → reach s'.mem root va j = reach s.mem root va j)
      ∧ ((r = none ∧ reach s'.mem root va (l + 1) = none)
        ∨ ∃ c, r = some (c * 4096 + 7) ∧ reach s'.mem root va (l + 1) = some c) := by
  have hrt := h.trees.reach_role h.root (by omega) ht
  have hnext := reach_succ_some ht
  rcases hfo : follow s.mem t (pageindex va l) with - | c
  · have hz := follow_none hfo
    unfold Kernel.tableEntry at hrun
    rw [get_bind, hz, if_neg (by decide)] at hrun
    have hstop : r = none ∧ s' = s → ∃ role', Tree ok taken root role' s'
        ∧ Grown s.mem root va s'.mem
        ∧ (∀ j, l + 1 < j → j ≤ 3 → reach s'.mem root va j = reach s.mem root va j)
        ∧ ((r = none ∧ reach s'.mem root va (l + 1) = none)
          ∨ ∃ c, r = some (c * 4096 + 7) ∧ reach s'.mem root va (l + 1) = some c) := by
      rintro ⟨rfl, rfl⟩
      exact ⟨role, h, Grown.refl, fun _ _ _ => rfl, .inl ⟨rfl, hnext.trans hfo⟩⟩
    cases allocator with
    | none =>
      cases hrun
      exact hstop ⟨rfl, rfl⟩
    | some alloc =>
      dsimp only at hrun
      by_cases hp : perm % 2 = 0
      · rw [if_pos hp] at hrun
        cases hrun
        exact hstop ⟨rfl, rfl⟩
      rw [if_neg hp] at hrun
      obtain ⟨p, s1, halloc, hrest⟩ := bind_ok.mp hrun
      have hhand := hf.hands alloc rfl s p s1 h.ok halloc
      obtain ⟨h1, hreach, hgrown⟩ := h.frame hhand.ok hhand.stay hhand.keep
      by_cases hp0 : p = 0
      · -- no page is left
        rw [if_pos hp0] at hrest
        cases hrest
        refine ⟨role, h1, hgrown va, fun j _ hj => hreach va j hj, .inl ⟨rfl, ?_⟩⟩
        rw [hreach va (l + 1) hl]
        exact hnext.trans hfo
      rw [if_neg hp0] at hrest
      obtain ⟨halign, hlast⟩ := assert_bind_ok hrest
      cases hlast
      obtain ⟨hnew, htaken⟩ := hhand.fresh hp0
      obtain ⟨c, rfl⟩ : ∃ c, p = c * 4096 := ⟨p / 4096, by omega⟩
      rw [Nat.mul_div_cancel _ (by decide)] at hnew htaken
      have hc : c < 512 := by
        have hphys := hlow _ rfl
        rw [pteAddr_page c (by decide)] at hphys
        omega
      have hcr : role c = none := by
        rcases hr : role c with - | q
        · rfl
        · exact absurd (h.taken c q hr) hnew
      have htc : t ≠ c := by
        rintro rfl
        rw [hcr] at hrt
        cases hrt
      have ht1 := (hreach va l (by omega)).trans ht
      have hfo1 : follow s1.mem t (pageindex va l) = none := by
        rw [← reach_succ_some ht1, hreach va (l + 1) hl]
        exact hnext.trans hfo
      have hghost := hf.ghost s1
      have hlink := linked_stores (m := s1.mem) (pageindex_lt va l) htc hc fun _ _ => rfl
      have h2 := h1.link (hf.write s1 _ hhand.ok) hrt (pageindex_lt va l) hcr
        ((hghost _ c).mpr htaken) (fun pn hpn => (hghost _ pn).mpr hpn) (by omega) hlink
      obtain ⟨hc2, hlater, hgrown2⟩ := hlink.walk h1.trees h1.root hl ht1 hfo1 hcr
      exact ⟨_, h2, (hgrown va).trans hgrown2,
        fun j hj hj3 => (hlater j hj hj3).trans (hreach va j hj3), .inr ⟨c, rfl, hc2⟩⟩
  · obtain ⟨he, -⟩ := h.trees.follow_some hrt hl (pageindex_lt _ _) hfo
    rw [tableEntry_some he] at hrun
    cases hrun
    exact ⟨role, h, Grown.refl, fun _ _ _ => rfl, .inr ⟨c, rfl, hnext.trans hfo⟩⟩

/-- The pointer `lookup_l4pagetable` returns. -/
def tableAddr : Option Nat → Nat
  | none => 0
  | some t => t * 4096

/-- `lookup_l4pagetable` from level `level` on. It returns `NULL` for an
entry that stays missing only; `Q` is what that leaves. -/
theorem Tree.lookupFrom (hf : FreshPages ok taken allocator) {Q : KState → Prop}
    (hnull : ∀ {l t s role s'}, l < 3 → Tree ok taken root role s →
      reach s.mem root va l = some t →
      Kernel.tableEntry allocator perm (t * 4096) (pageindex va l) s = (.ok none, s') → Q s') :
    ∀ n level t s role r s', level + n = 3 → Tree ok taken root role s →
      reach s.mem root va level = some t →
      lookupFrom allocator perm va n level (t * 4096) s = (.ok r, s') →
      ∃ role', Tree ok taken root role' s' ∧ Grown s.mem root va s'.mem
        ∧ r = tableAddr (leafTable s'.mem root va) ∧ (r = 0 → Q s') := by
  intro n
  induction n with
  | zero =>
    intro level t s role r s' hlev h ht hrun
    obtain rfl : level = 3 := hlev
    cases hrun
    have ht0 := h.inner t _ (h.trees.reach_role h.root (Nat.le_refl 3) ht) (Nat.succ_pos 2)
    refine ⟨role, h, Grown.refl, ?_, fun h0 => by omega⟩
    rw [leafTable_eq_reach, ht]
    rfl
  | succ n ih =>
    intro level t s role r s' hlev h ht hrun
    rw [Kernel.lookupFrom] at hrun
    obtain ⟨e, s1, hentry, hrest⟩ := bind_ok.mp hrun
    cases e with
    | none =>
      cases hrest
      obtain ⟨role1, h1, hg1, -, hcase⟩ := h.tableEntry hf (by omega) ht hentry
        fun pe hpe => by cases hpe
      rcases hcase with ⟨-, hnone⟩ | ⟨c, hc, -⟩
      · refine ⟨role1, h1, hg1, ?_, fun _ => hnull (by omega) h ht hentry⟩
        rw [leafTable_eq_reach, reach_none_of_le hnone (by omega)]
        rfl
      · cases hc
    | some pe =>
      obtain ⟨hlow, hrest1⟩ := assert_bind_ok hrest
      obtain ⟨-, hrest2⟩ := assert_bind_ok hrest1
      obtain ⟨-, hrest3⟩ := assert_bind_ok hrest2
      obtain ⟨role1, h1, hg1, -, hcase⟩ := h.tableEntry hf (by omega) ht hentry
        fun pe' hpe => by cases hpe; exact hlow
      rcases hcase with ⟨hc, -⟩ | ⟨c, hc, hreach⟩
      · cases hc
      · cases hc
        rw [pteAddr_page c (by decide)] at hrest3
        obtain ⟨role', h', hg', hr⟩ :=
          ih (level + 1) c _ role1 r s' (by omega) h1 hreach hrest3
        exact ⟨role', h', hg1.trans hg', hr⟩

-- ==== the loop

/-- `refreshL4`: the table of the address, looked up or remembered. -/
theorem Tree.refresh (hf : FreshPages ok taken allocator) (h : Tree ok taken root role s)
    {r : Nat}
    (hcache : va / 2 ^ 21 % 2 ^ 32 = last → l4 = tableAddr (leafTable s.mem root va))
    (hrun : refreshL4 allocator (root * 4096) va perm last l4 s = (.ok r, s')) :
    ∃ role', Tree ok taken root role' s' ∧ Grown s.mem root va s'.mem
      ∧ r = tableAddr (leafTable s'.mem root va) := by
  unfold refreshL4 at hrun
  by_cases hlast : va / 2 ^ 21 % 2 ^ 32 = last
  · rw [if_neg fun hne => hne hlast] at hrun
    cases hrun
    exact ⟨role, h, Grown.refl, hcache hlast⟩
  · rw [if_pos hlast] at hrun
    obtain ⟨role', h', hg, hr, -⟩ := Tree.lookupFrom hf (fun _ _ _ _ => trivial) 3 0 root s
      role r s' rfl h rfl hrun
    exact ⟨role', h', hg, hr⟩

/-- What one round of the loop can do: fail for want of a table, or go on
after an entry was stored, or after there was nothing to store it in. -/
theorem mapLoop_round
    (hrun : mapLoop allocator pt perm (n + 1) va pa last l4 s = (.ok r, s')) :
    ∃ l4' s1, refreshL4 allocator pt va perm last l4 s = (.ok l4', s1)
      ∧ ((l4' = 0 ∧ perm % 2 = 1 ∧ r = -1 ∧ s' = s1)
        ∨ ∃ s2, mapLoop allocator pt perm n (u64 (va + 4096)) (pa + 4096)
              (va / 2 ^ 21 % 2 ^ 32) l4' s2 = (.ok r, s')
          ∧ ((l4' = 0 ∧ perm % 2 = 0 ∧ s2 = s1)
            ∨ (l4' ≠ 0 ∧ s2 = { s1 with
                mem := store s1.mem (l4' + 8 * pageindex va 3) 8
                  (if perm % 2 = 1 then pa + perm else perm) }))) := by
  rw [mapLoop] at hrun
  obtain ⟨l4', s1, hl4, hrest⟩ := bind_ok.mp hrun
  refine ⟨l4', s1, hl4, ?_⟩
  by_cases h0 : l4' = 0
  · rw [if_neg fun h => h.2 h0, if_neg fun h => h h0] at hrest
    by_cases hp : perm % 2 = 1
    · rw [if_pos hp] at hrest
      cases hrest
      exact .inl ⟨h0, hp, rfl, rfl⟩
    · rw [if_neg hp] at hrest
      exact .inr ⟨s1, hrest, .inl ⟨h0, by omega, rfl⟩⟩
  · by_cases hp : perm % 2 = 1
    · rw [if_pos ⟨hp, h0⟩] at hrest
      refine .inr ⟨_, hrest, .inr ⟨h0, ?_⟩⟩
      rw [if_pos hp]
    · rw [if_neg fun h => hp h.1, if_pos h0] at hrest
      refine .inr ⟨_, hrest, .inr ⟨h0, ?_⟩⟩
      rw [if_neg hp]

/-- A last-level entry that translates to page `pa`, or to nothing if
`perm` lacks `PTE_P`. -/
def Translates (perm pa e : Nat) : Prop :=
  if perm % 2 = 1 then e = pa + perm else e % 2 = 0

/-- The entry of one page, stored in the table of its region. -/
theorem Tree.store (hf : FreshPages ok taken allocator) (h : Tree ok taken root role s)
    (hleaf : leafTable s.mem root va = some t) (hv : v < 2 ^ 64)
    (hs : s' = { s with mem := store s.mem (t * 4096 + 8 * pageindex va 3) 8 v }) :
    Tree ok taken root role s'
      ∧ (∀ a, leafTable s'.mem root a = leafTable s.mem root a)
      ∧ ∀ a, leafEntry s'.mem root a
        = if vpn a = vpn va then v else leafEntry s.mem root a := by
  have hrt := h.trees.leafTable_some h.root hleaf
  subst hs
  exact ⟨⟨hf.write s _ h.ok, h.trees.store_leaf hrt (pageindex_lt _ _), h.root,
      fun pn p hp => (hf.ghost s _ pn).mpr (h.taken pn p hp), h.inner⟩,
    fun a => h.trees.leafTable_store hrt (pageindex_lt _ _) h.root,
    h.trees.leafEntry_page h.root hleaf hv⟩

/-- One round that goes on: the page of `va` is translated as asked, the
others as before. -/
theorem Tree.round (hf : FreshPages ok taken allocator)
    (hg : Grown s.mem root va s1.mem) (h1 : Tree ok taken root role1 s1)
    (hl4 : l4 = tableAddr (leafTable s1.mem root va)) (hva : va < 2 ^ 48)
    (hperm : perm < 4096) (hpa : perm % 2 = 1 → pa + 4096 ≤ 0x200000)
    (hs : (l4 = 0 ∧ perm % 2 = 0 ∧ s2 = s1)
      ∨ (l4 ≠ 0 ∧ s2 = { s1 with
          mem := ByteMap.store s1.mem (l4 + 8 * pageindex va 3) 8
            (if perm % 2 = 1 then pa + perm else perm) })) :
    Tree ok taken root role1 s2 ∧ l4 = tableAddr (leafTable s2.mem root va)
      ∧ (∀ a, vpn a ≠ va / 4096 → leafEntry s2.mem root a = leafEntry s.mem root a)
      ∧ ∀ a, vpn a = va / 4096 → Translates perm pa (leafEntry s2.mem root a) := by
  have hvpn := vpn_of_lt hva
  unfold Translates
  rcases hleaf : leafTable s1.mem root va with - | t
  · -- no table, and none is added without `PTE_P`: the page is unmapped
    rw [hleaf] at hl4
    obtain ⟨-, heven, rfl⟩ := hs.resolve_right fun hx => hx.1 hl4
    refine ⟨h1, hl4.trans (by rw [hleaf]), fun a _ => hg.entry a, fun a ha => ?_⟩
    rw [if_neg (by omega), leafEntry_of_vpn (ha.trans hvpn.symm)]
    unfold leafEntry
    rw [hleaf]
    rfl
  · rw [hleaf] at hl4
    have ht0 : t ≠ 0 :=
      h1.inner t _ (h1.trees.leafTable_some h1.root hleaf) (Nat.succ_pos 2)
    change l4 = t * 4096 at hl4
    obtain ⟨-, hs2⟩ := hs.resolve_left fun hx => ht0 (by omega)
    rw [hl4] at hs2
    have hv : (if perm % 2 = 1 then pa + perm else perm) < 2 ^ 64 := by
      split <;> omega
    obtain ⟨h2, htab, hent⟩ := h1.store hf hleaf hv hs2
    refine ⟨h2, ?_, fun a ha => ?_, fun a ha => ?_⟩
    · rw [htab, hleaf]
      exact hl4
    · rw [hent, if_neg fun hsame => ha (hsame.trans hvpn)]
      exact hg.entry a
    · rw [hent, if_pos (ha.trans hvpn.symm)]
      by_cases hp : perm % 2 = 1
      · rw [if_pos hp, if_pos hp]
      · rw [if_neg hp, if_neg hp]
        omega

/-- The loop of `virtual_memory_map`. -/
theorem Tree.mapLoop (hf : FreshPages ok taken allocator) (hperm : perm < 4096) :
    ∀ n va pa last l4 s role (r : Int) s', Tree ok taken root role s →
      va + n * 4096 ≤ 2 ^ 48 → (perm % 2 = 1 → pa + n * 4096 ≤ 0x200000) →
      (va / 2 ^ 21 % 2 ^ 32 = last → l4 = tableAddr (leafTable s.mem root va)) →
      mapLoop allocator (root * 4096) perm n va pa last l4 s = (.ok r, s') →
      ∃ role', Tree ok taken root role' s'
        ∧ (∀ a, ¬ (va / 4096 ≤ vpn a ∧ vpn a < va / 4096 + n) →
            leafEntry s'.mem root a = leafEntry s.mem root a)
        ∧ (r = 0 → ∀ k < n, ∀ a, vpn a = va / 4096 + k →
            Translates perm (pa + k * 4096) (leafEntry s'.mem root a)) := by
  intro n
  induction n with
  | zero =>
    intro va pa last l4 s role r s' h _ _ _ hrun
    cases hrun
    exact ⟨role, h, fun _ _ => rfl, fun _ k hk => absurd hk (Nat.not_lt_zero k)⟩
  | succ n ih =>
    intro va pa last l4 s role r s' h hva hpa hcache hrun
    obtain ⟨l4', s1, hl4, hcase⟩ := mapLoop_round hrun
    obtain ⟨role1, h1, hg, hl4'⟩ := h.refresh hf hcache hl4
    rcases hcase with ⟨-, -, rfl, rfl⟩ | ⟨s2, hrest, hs2⟩
    · exact ⟨role1, h1, fun a _ => hg.entry a, fun hr => by cases hr⟩
    obtain ⟨h2, hl42, hout, hin⟩ := h1.round hf hg hl4' (by omega) hperm
      (fun hp => by have := hpa hp; omega) hs2
    have hu : u64 (va + 4096) = va + 4096 := u64_of_lt (by omega)
    have hnext : (va + 4096) / 4096 = va / 4096 + 1 :=
      Nat.add_div_right va (by decide)
    rw [hu] at hrest
    -- a next page with the same index is in the region of the table remembered
    have hcache' : (va + 4096) / 2 ^ 21 % 2 ^ 32 = va / 2 ^ 21 % 2 ^ 32 →
        l4' = tableAddr (leafTable s2.mem root (va + 4096)) := by
      intro hidx
      have hrg : region (va + 4096) = region va := by
        unfold region
        omega
      rw [leafTable_of_region hrg]
      exact hl42
    obtain ⟨role', h', hout', hin'⟩ := ih (va + 4096) (pa + 4096) _ l4' s2 role1 r s'
      h2 (by omega) (fun hp => by have := hpa hp; omega) hcache' hrest
    rw [hnext] at hout' hin'
    refine ⟨role', h', fun a ha => ?_, fun hr k hk a ha => ?_⟩
    · rw [hout' a (by omega), hout a (by omega)]
    · cases k with
      | zero =>
        rw [hout' a (by omega), Nat.zero_mul, Nat.add_zero]
        exact hin a ha
      | succ k =>
        have hpage : pa + (k + 1) * 4096 = pa + 4096 + k * 4096 := by omega
        rw [hpage]
        exact hin' hr k (by omega) a (by omega)

/-- The assertions of `virtual_memory_map`, and then the loop. -/
theorem virtualMemoryMap_ok (hsz64 : sz < 2 ^ 64)
    (hrun : virtualMemoryMap pt va pa sz perm allocator s = (.ok r, s')) :
    va % 4096 = 0 ∧ sz % 4096 = 0
      ∧ (perm % 2 = 1 → pa % 4096 = 0 ∧ pa + sz ≤ 0x200000)
      ∧ perm < 4096 ∧ pt % 4096 = 0
      ∧ mapLoop allocator pt perm (sz / 4096) va pa (2 ^ 32 - 1) 0 s = (.ok r, s') := by
  obtain ⟨hva, hrun1⟩ := assert_bind_ok hrun
  obtain ⟨hsz, hrun2⟩ := assert_bind_ok hrun1
  obtain ⟨-, hrun3⟩ := assert_bind_ok hrun2
  obtain ⟨hpa, hrun4⟩ := assert_bind_ok hrun3
  obtain ⟨hwrap, hrun5⟩ := assert_bind_ok hrun4
  obtain ⟨hphys, hrun6⟩ := assert_bind_ok hrun5
  obtain ⟨hperm, hrun7⟩ := assert_bind_ok hrun6
  obtain ⟨hpt, hrun8⟩ := assert_bind_ok hrun7
  refine ⟨hva, hsz, fun hp => ⟨hpa hp, ?_⟩, hperm, hpt, hrun8⟩
  have h1 := hwrap hp
  have h2 := hphys hp
  unfold u64 at h1 h2
  omega

/-- A call of `virtual_memory_map` keeps the tree, whatever it
returns. -/
theorem Tree.map (hf : FreshPages ok taken allocator) (h : Tree ok taken root role s)
    (hrange : va + sz ≤ 2 ^ 48)
    (hrun : virtualMemoryMap (root * 4096) va pa sz perm allocator s = (.ok r, s')) :
    ∃ role', Tree ok taken root role' s'
      ∧ (∀ a, ¬ (va / 4096 ≤ vpn a ∧ vpn a < va / 4096 + sz / 4096) →
          leafEntry s'.mem root a = leafEntry s.mem root a)
      ∧ (r = 0 → ∀ k < sz / 4096, ∀ a, vpn a = va / 4096 + k →
          Translates perm (pa + k * 4096) (leafEntry s'.mem root a)) := by
  obtain ⟨-, hsz, hpa, hperm, -, hloop⟩ := virtualMemoryMap_ok (by omega) hrun
  refine Tree.mapLoop hf hperm (sz / 4096) va pa (2 ^ 32 - 1) 0 s role r s' h
    (by omega) (fun hp => ?_) (fun hidx => ?_) hloop
  · have := (hpa hp).2
    omega
  · omega

end Tree

-- ==== the map

/-- Runs of `virtual_memory_map` calls on the page table at `pt`, failed
ones included, each with an allocator of its own. -/
inductive MapRun (ok : KState → Prop) (taken : KState → Nat → Prop) (pt : Nat) :
    KState → KState → Prop
  | refl (s : KState) : MapRun ok taken pt s s
  | map {s s₁ s₂ va pa sz perm allocator r} : MapRun ok taken pt s s₁ →
      FreshPages ok taken allocator → va + sz ≤ 2 ^ 48 →
      virtualMemoryMap pt va pa sz perm allocator s₁ = (.ok r, s₂) →
      MapRun ok taken pt s s₂

section Map

variable {s₀ : KState}

theorem MapRun.tree (hpt : pt % 4096 = 0) (hok : ok s₀)
    (hz : ∀ x, pt ≤ x → x < pt + 4096 → s₀.mem x = 0) (ht : taken s₀ (pt / 4096))
    (hrun : MapRun ok taken pt s₀ s) : ∃ role, Tree ok taken (pt / 4096) role s := by
  have hroot : pt / 4096 * 4096 = pt := by omega
  induction hrun with
  | refl => exact ⟨_, Tree.empty hok (by rw [hroot]; exact hz) ht⟩
  | map _ hf hrange hcall ih =>
    obtain ⟨role, h⟩ := ih
    rw [← hroot] at hcall
    obtain ⟨role', h', -⟩ := h.map hf hrange hcall
    exact ⟨role', h'⟩

/-- What `virtual_memory_lookup` makes of an entry. -/
theorem Tree.lookup (h : Tree ok taken root role s) (a pa : Nat)
    (ha : Translates perm (pa / 4096 * 4096) (leafEntry s.mem root a))
    (hperm : perm < 4096) (hpa : perm % 2 = 1 → pa < 0x200000)
    (hoff : pa % 4096 = a % 4096) :
    virtualMemoryLookup s.mem (root * 4096) a
      = if perm % 2 = 1 then { pn := (pa / 4096 : Nat), pa := pa, perm := perm }
        else { pn := -1, pa := 2 ^ 64 - 1, perm := 0 } := by
  rw [h.trees.virtualMemoryLookup_eq h.root]
  unfold Translates at ha
  by_cases hp : perm % 2 = 1
  · rw [if_pos hp] at ha
    have hpn : (pa / 4096 * 4096 + perm) / 4096 = pa / 4096 := by omega
    have haddr : pteAddr (pa / 4096 * 4096 + perm) + a % 4096 = pa := by
      rw [pteAddr_page _ hperm]
      omega
    have hflags : (pa / 4096 * 4096 + perm) % 4096 = perm := by omega
    have hi32 : i32 (pa / 4096) = (pa / 4096 : Nat) := by
      unfold i32 u32
      omega
    rw [ha, if_pos (by omega), if_pos hp, hpn, haddr, hflags, hi32]
  · rw [if_neg hp] at ha
    rw [if_neg (by omega), if_neg hp]

/-- In every page table built from a cleared root, a call that returns 0
makes `[va, va+sz)` translate to `[pa, pa+sz)` with the permissions asked
for, or to nothing without `PTE_P`, and leaves the translation of every
address whose low 48 bits are outside the range. -/
theorem page_tables_map (hok : ok s₀)
    (hz : ∀ x, pt ≤ x → x < pt + 4096 → s₀.mem x = 0) (ht : taken s₀ (pt / 4096))
    (hbuilt : MapRun ok taken pt s₀ s) (hf : FreshPages ok taken allocator)
    (hrange : va + sz ≤ 2 ^ 48)
    (hrun : virtualMemoryMap pt va pa sz perm allocator s = (.ok 0, s')) :
    (∀ X, X < sz → virtualMemoryLookup s'.mem pt (va + X)
        = if perm % 2 = 1 then
            { pn := ((pa + X) / 4096 : Nat), pa := pa + X, perm := perm }
          else { pn := -1, pa := 2 ^ 64 - 1, perm := 0 })
      ∧ ∀ a, ¬ (va ≤ a % 2 ^ 48 ∧ a % 2 ^ 48 < va + sz) →
          virtualMemoryLookup s'.mem pt a = virtualMemoryLookup s.mem pt a := by
  obtain ⟨hva, hsz, hpa, hperm, hpt, -⟩ := virtualMemoryMap_ok (by omega) hrun
  have hroot : pt / 4096 * 4096 = pt := by omega
  obtain ⟨role, h⟩ := hbuilt.tree hpt hok hz ht
  rw [← hroot] at hrun
  obtain ⟨role', h', hout, hin⟩ := h.map hf hrange hrun
  refine ⟨fun X hX => ?_, fun a ha => ?_⟩
  · have hk : vpn (va + X) = va / 4096 + X / 4096 := by
      rw [vpn_of_lt (by omega)]
      omega
    have hent := hin rfl (X / 4096) (by omega) (va + X) hk
    by_cases hp : perm % 2 = 1
    · obtain ⟨hal, hphys⟩ := hpa hp
      have hpage : pa + X / 4096 * 4096 = (pa + X) / 4096 * 4096 := by omega
      have hoff : (pa + X) % 4096 = (va + X) % 4096 := by omega
      rw [hpage] at hent
      have hlook := h'.lookup (va + X) (pa + X) hent hperm (fun _ => by omega) hoff
      rwa [hroot] at hlook
    · -- without `PTE_P` any entry that is not present will do
      have hnone : Translates perm ((va + X) / 4096 * 4096)
          (leafEntry s'.mem (pt / 4096) (va + X)) := by
        unfold Translates at hent ⊢
        rw [if_neg hp] at hent ⊢
        exact hent
      have hlook := h'.lookup (va + X) (va + X) hnone hperm
        (fun hodd => absurd hodd hp) rfl
      rw [hroot, if_neg hp] at hlook
      rw [hlook, if_neg hp]
  · have hvpn : vpn a = a % 2 ^ 48 / 4096 := by
      unfold vpn
      omega
    have hsame := hout a (by omega)
    have e1 : virtualMemoryLookup _ _ a = _ := h'.trees.virtualMemoryLookup_eq h'.root
    have e2 : virtualMemoryLookup _ _ a = _ := h.trees.virtualMemoryLookup_eq h.root
    rw [hroot] at e1 e2
    rw [e1, e2, hsame]

end Map

-- ==== a small tree

/-- Process 1 with a cleared page table in page 1; pages from 2 on are
free. -/
def oneTable : KState :=
  { blank with
    pageinfo := fun pn => if pn < 2 then ⟨1, 1⟩ else ⟨0, 0⟩
    pageno := 2
    current := 1 }

/-- Two pages mapped across a region boundary, then the second taken out
again. -/
theorem page_tables_map_unmap :
    let alloc := some pagetableAlloc
    let s := (virtualMemoryMap 0x1000 0x1FF000 0x8000 0x2000 7 alloc oneTable).2
    let s' := (virtualMemoryMap 0x1000 0x200000 0 0x1000 0 alloc s).2
    virtualMemoryLookup s.mem 0x1000 0x200010 = ⟨9, 0x9010, 7⟩
      ∧ virtualMemoryLookup s'.mem 0x1000 0x200010 = ⟨-1, 2 ^ 64 - 1, 0⟩
      ∧ virtualMemoryLookup s'.mem 0x1000 0x1FF010
        = virtualMemoryLookup s.mem 0x1000 0x1FF010 := by
  intro alloc s s'
  have hfresh : FreshPages (fun s => s.cur.pid = 1) Owned alloc :=
    pagetableAlloc_fresh (by decide)
  have hz : ∀ x, 0x1000 ≤ x → x < 0x1000 + 4096 → oneTable.mem x = 0 :=
    fun _ _ _ => rfl
  have hroot : Owned oneTable (0x1000 / 4096) := by
    show (oneTable.pageinfo (0x1000 / 4096)).owner ≠ PO_FREE
    decide
  have hs : virtualMemoryMap 0x1000 0x1FF000 0x8000 0x2000 7 alloc oneTable
      = (.ok 0, s) := eq_of_toOption (by decide +kernel)
  have hs' : virtualMemoryMap 0x1000 0x200000 0 0x1000 0 alloc s = (.ok 0, s') :=
    eq_of_toOption (by decide +kernel)
  have hbuilt : MapRun (fun s => s.cur.pid = 1) Owned 0x1000 oneTable s :=
    .map (.refl _) hfresh (by decide) hs
  have hcur : (fun s : KState => s.cur.pid = 1) oneTable := rfl
  have hmap := page_tables_map hcur hz hroot (.refl _) hfresh (by decide) hs
  have hunmap := page_tables_map hcur hz hroot hbuilt hfresh (by decide) hs'
  exact ⟨hmap.1 0x1010 (by decide), hunmap.1 0x10 (by decide),
    hunmap.2 0x1FF010 (by decide)⟩

/-- A walk does not see the bits above the 48th: mapping page 0 changes
what is found at `2^48`, which is outside of the range. -/
theorem map_changes_alias :
    let alloc := some pagetableAlloc
    let r := virtualMemoryMap 0x1000 0 0x8000 0x1000 7 alloc oneTable
    FreshPages (fun s => s.cur.pid = 1) Owned alloc ∧ oneTable.cur.pid = 1
      ∧ (∀ x, 0x1000 ≤ x → x < 0x1000 + 4096 → oneTable.mem x = 0)
      ∧ Owned oneTable (0x1000 / 4096) ∧ r.1.toOption = some 0
      ∧ virtualMemoryLookup oneTable.mem 0x1000 (2 ^ 48) = ⟨-1, 2 ^ 64 - 1, 0⟩
      ∧ virtualMemoryLookup r.2.mem 0x1000 (2 ^ 48) = ⟨8, 0x8000, 7⟩ := by
  intro alloc r
  refine ⟨pagetableAlloc_fresh (by decide), rfl, fun _ _ _ => rfl, ?_, by decide +kernel,
    by decide +kernel, by decide +kernel⟩
  show (oneTable.pageinfo (0x1000 / 4096)).owner ≠ PO_FREE
  decide

end RojocOS.Kernel
