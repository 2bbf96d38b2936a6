/-
Building page tables.

`virtual_memory_map` with an allocator adds the tables that are missing
on the way to an address, then stores the entries. A new table is a page
of the owner, cleared, so linking it changes no translation
(`Linked.leafEntry`); only the stores at the end do (`Mapped`). If the
pages run out in between, the tables added so far stay and nothing is
mapped.

`reach` is the walk cut after some levels. It says how many tables are
missing, hence how many pages a mapping takes.
-/
import RojocOS.Kernel.Proofs.Pages

namespace RojocOS.Kernel

open ByteMap Prog

variable {role : Roles} {c j u v va va' k pn : Nat} {p : Place} {m m' m1 m2 : ByteMap}
  {s1 : KState}
variable {E : KEnv} {i l perm pre root t : Nat} {o : Int} {s : KState} {used : List Blk}

-- ==== the walk

/-- The table that the walk for `va` is in after `l` levels. -/
def reach (m : ByteMap) (root va : Nat) : Nat → Option Nat
  | 0 => some root
  | l + 1 => (reach m root va l).bind fun t => follow m t (pageindex va l)

/-- The indices of the first `l` levels together. -/
def indexPrefix (va : Nat) : Nat → Nat
  | 0 => 0
  | l + 1 => indexPrefix va l * 512 + pageindex va l

/-- The 2 MiB region of an address, as a page table sees it. -/
def region (va : Nat) : Nat := va / 2 ^ 21 % 2 ^ 27

theorem indexPrefix_three (va : Nat) : indexPrefix va 3 = region va :=
  pageindex_prefix va

theorem leafTable_eq_reach : leafTable m root va = reach m root va 3 := by
  show _ = (((some root).bind _).bind _).bind _
  rw [Option.bind_some, Option.bind_assoc]
  rfl

theorem reach_succ_none (h : reach m root va l = none) :
    reach m root va (l + 1) = none := by
  rw [reach, h, Option.bind_none]

theorem reach_none_of_le (h : reach m root va l = none)
    (hk : l ≤ k) : reach m root va k = none := by
  induction k, hk using Nat.le_induction with
  | base => exact h
  | succ k _ ih => exact reach_succ_none ih

theorem reach_succ_some (h : reach m root va l = some t) :
    reach m root va (l + 1) = follow m t (pageindex va l) := by
  rw [reach, h, Option.bind_some]

/-- The first levels of the walk depend on the first indices. -/
theorem reach_congr : ∀ {l}, (∀ j < l, pageindex va' j = pageindex va j) →
    reach m root va' l = reach m root va l := by
  intro l
  induction l with
  | zero => exact fun _ => rfl
  | succ l ih =>
    intro h
    rw [reach, reach, ih fun j hj => h j (by omega), h l (by omega)]

theorem Trees.reach_role (ht : Trees m role) (hr : role root = some ⟨o, 0, 0⟩) :
    ∀ {l t}, l ≤ 3 → reach m root va l = some t →
      role t = some ⟨o, l, indexPrefix va l⟩ := by
  intro l
  induction l with
  | zero =>
    intro t _ h
    cases h
    exact hr
  | succ l ih =>
    intro t hl h
    obtain ⟨u, hu, hf⟩ := Option.bind_eq_some_iff.mp h
    exact (ht.follow_some (ih (by omega) hu) hl (pageindex_lt _ _) hf).2

/-- The upper indices are those of the region. -/
theorem pageindex_of_region (h : region va' = region va) :
    ∀ l < 3, pageindex va' l = pageindex va l := by
  have e1 : ∀ x : Nat, x / 2 ^ 30 = x / 2 ^ 21 / 512 := fun x =>
    (Nat.div_div_eq_div_mul x (2 ^ 21) 512).symm
  have e0 : ∀ x : Nat, x / 2 ^ 39 = x / 2 ^ 21 / 262144 := fun x =>
    (Nat.div_div_eq_div_mul x (2 ^ 21) 262144).symm
  unfold region at h
  intro l hl
  rcases l with - | - | - | l
  · rw [pageindex_zero, pageindex_zero, e0, e0]
    omega
  · rw [pageindex_one, pageindex_one, e1, e1]
    omega
  · rw [pageindex_two, pageindex_two]
    omega
  · omega

theorem leafTable_of_region (h : region va' = region va) :
    leafTable m root va' = leafTable m root va := by
  have hi := pageindex_of_region h
  unfold leafTable
  rw [hi 0 (by omega), hi 1 (by omega), hi 2 (by omega)]

/-- Region and last index together are the page number. -/
theorem region_pageindex (va : Nat) :
    region va * 512 + pageindex va 3 = va / 4096 % 2 ^ 36 := by
  have e : va / 2 ^ 21 = va / 4096 / 512 :=
    (Nat.div_div_eq_div_mul va 4096 512).symm
  rw [region, e, pageindex_three]
  change va / 4096 / 512 % 2 ^ 27 * 512 + va / 4096 % 512 = _
  generalize va / 4096 = x
  omega

/-- The tables that are missing below level `l`, `n` levels to go. -/
def missingFrom (m : ByteMap) (root va : Nat) : Nat → Nat → Nat
  | 0, _ => 0
  | n + 1, l => (if reach m root va (l + 1) = none then 1 else 0)
      + missingFrom m root va n (l + 1)

/-- The tables that are missing on the way to `va`. -/
def missing (m : ByteMap) (root va : Nat) : Nat := missingFrom m root va 3 0

theorem missing_eq (m : ByteMap) (root va : Nat) :
    missing m root va = (if reach m root va 1 = none then 1 else 0)
      + ((if reach m root va 2 = none then 1 else 0)
        + if reach m root va 3 = none then 1 else 0) := by
  simp only [missing, missingFrom, Nat.add_zero, Nat.zero_add, Nat.reduceAdd]

theorem missingFrom_congr :
    ∀ {n l}, (∀ j, l < j → j ≤ l + n → reach m' root va j = reach m root va j) →
      missingFrom m' root va n l = missingFrom m root va n l := by
  intro n
  induction n with
  | zero => exact fun _ => rfl
  | succ n ih =>
    intro l h
    rw [missingFrom, missingFrom, h (l + 1) (by omega) (by omega),
      ih fun j hj hj' => h j (by omega) (by omega)]

theorem missing_le (m : ByteMap) (root va : Nat) : missing m root va ≤ 3 := by
  rw [missing_eq]
  split <;> split <;> split <;> omega

theorem missing_eq_zero : missing m root va = 0 ↔ leafTable m root va ≠ none := by
  rw [missing_eq, leafTable_eq_reach]
  refine ⟨fun h h3 => ?_, fun h3 => ?_⟩
  · rw [if_pos h3] at h
    omega
  · have h2 : reach m root va 2 ≠ none := fun h => h3 (reach_succ_none h)
    rw [if_neg h3, if_neg h2, if_neg fun h => h2 (reach_succ_none h)]

theorem missing_bare (h : reach m root va 1 = none) : missing m root va = 3 := by
  have h2 := reach_succ_none h
  rw [missing_eq, if_pos h, if_pos h2, if_pos (reach_succ_none h2)]

-- ==== linking a table

/-- The map of tables with one more. -/
def Roles.add (role : Roles) (c : Nat) (p : Place) : Roles :=
  fun pn => if pn = c then some p else role pn

theorem Roles.add_same : role.add c p c = some p :=
  if_pos rfl

theorem Roles.add_other (h : pn ≠ c) : role.add c p pn = role pn :=
  if_neg h

/-- Memory after page `c`, cleared, became entry `i` of table `t`. -/
structure Linked (m : ByteMap) (t i c : Nat) (m' : ByteMap) : Prop where
  zero : ∀ x, x / 4096 = c → m' x = 0
  entry : getEntry m' (t * 4096) i = c * 4096 + 7
  keep : ∀ x, x / 4096 ≠ c →
    ¬ (t * 4096 + 8 * i ≤ x ∧ x < t * 4096 + 8 * i + 8) → m' x = m x

section Link

variable {o' : Int}

section

variable (h : Linked m t i c m')

include h

theorem Linked.getEntry_new (hj : j < 512) : getEntry m' (c * 4096) j = 0 :=
  load_eq_zero.mpr fun x h1 h2 => h.zero x (by omega)

theorem Linked.getEntry_old (hi : i < 512) (hj : j < 512) (hu : u ≠ c)
    (hne : u ≠ t ∨ j ≠ i) : getEntry m' (u * 4096) j = getEntry m (u * 4096) j := by
  refine load_congr fun x h1 h2 => h.keep x (by omega) fun hin => ?_
  rcases hne with hne | hne
  · exact hne (by omega)
  · by_cases hut : u = t
    · subst hut
      exact hne (by omega)
    · exact hut (by omega)

theorem Linked.follow_new (hj : j < 512) : follow m' c j = none := by
  unfold follow
  rw [h.getEntry_new hj, if_pos rfl]

theorem Linked.follow_link : follow m' t i = some c := by
  unfold follow
  have hdiv : (c * 4096 + 7) / 4096 = c := by omega
  rw [h.entry, if_neg (by omega), hdiv]

theorem Linked.follow_old (hi : i < 512) (hj : j < 512) (hu : u ≠ c) (hne : u ≠ t ∨ j ≠ i) :
    follow m' u j = follow m u j := by
  unfold follow
  rw [h.getEntry_old hi hj hu hne]

theorem Linked.trees (ht : Trees m role)
    (hrt : role t = some ⟨o, l, pre⟩) (hi : i < 512) (hc : role c = none) :
    Trees m' (role.add c ⟨o, l + 1, pre * 512 + i⟩) := by
  constructor
  intro pn q l' pre' hp hl' j hj
  by_cases hpc : pn = c
  · exact .inl (hpc ▸ h.getEntry_new hj)
  rw [Roles.add_other hpc] at hp
  by_cases hlink : pn = t ∧ j = i
  · obtain ⟨rfl, rfl⟩ := hlink
    rw [hrt] at hp
    cases hp
    exact .inr ⟨c, h.entry, Roles.add_same⟩
  · have hne : pn ≠ t ∨ j ≠ i := by
      by_cases hpt : pn = t
      · exact .inr fun hji => hlink ⟨hpt, hji⟩
      · exact .inl hpt
    rw [h.getEntry_old hi hj hpc hne]
    rcases ht.upper pn q l' pre' hp hl' j hj with h0 | ⟨d, hd, hrd⟩
    · exact .inl h0
    · refine .inr ⟨d, hd, ?_⟩
      rw [Roles.add_other fun hdc => by rw [hdc, hc] at hrd; cases hrd]
      exact hrd

theorem Linked.tables (ht : Tables m role)
    (hrt : role t = some ⟨o, l, pre⟩) (hi : i < 512)
    (hc : role c = none) (hc512 : c < 512) :
    Tables m' (role.add c ⟨o, l + 1, pre * 512 + i⟩) := by
  refine ⟨h.trees ht.toTrees hrt hi hc, fun pn p hp => ?_⟩
  by_cases hpc : pn = c
  · exact hpc ▸ hc512
  · rw [Roles.add_other hpc] at hp
    exact ht.low pn p hp

/-- What the walks see of the new table: those that used to end at the
entry go one level further. -/
theorem Linked.reach_cases (va : Nat) (ht : Trees m role)
    (hr : role root = some ⟨o', 0, 0⟩) (hrt : role t = some ⟨o, l, pre⟩)
    (hi : i < 512) (hz : getEntry m (t * 4096) i = 0) (hc : role c = none) :
    ∀ k ≤ 3, reach m' root va k = reach m root va k
      ∨ (k = l + 1 ∧ reach m root va k = none ∧ reach m' root va k = some c
          ∧ reach m root va l = some t ∧ pageindex va l = i) := by
  have hft : follow m t i = none := if_pos hz
  intro k
  induction k with
  | zero => exact fun _ => .inl rfl
  | succ k ih =>
    intro hk
    rcases ih (by omega) with heq | ⟨hkl, hnone, hsome, -, -⟩
    · rcases hu : reach m root va k with - | u
      · exact .inl ((reach_succ_none (heq.trans hu)).trans (reach_succ_none hu).symm)
      have hru := ht.reach_role hr (by omega) hu
      have huc : u ≠ c := by
        rintro rfl
        rw [hc] at hru
        cases hru
      rw [reach_succ_some hu, reach_succ_some (heq.trans hu)]
      by_cases hlink : u = t ∧ pageindex va k = i
      · obtain ⟨rfl, hidx⟩ := hlink
        rw [hrt] at hru
        injection hru with hru
        injection hru with _ hlk _
        subst hlk
        refine .inr ⟨rfl, hidx ▸ hft, hidx ▸ h.follow_link, hu, hidx⟩
      · refine .inl (h.follow_old hi (pageindex_lt _ _) huc ?_)
        by_cases hut : u = t
        · exact .inr fun hx => hlink ⟨hut, hx⟩
        · exact .inl hut
    · refine .inl ?_
      rw [reach_succ_none hnone, reach_succ_some hsome, h.follow_new (pageindex_lt _ _)]

/-- A new table is empty, so no translation changes. -/
theorem Linked.leafEntry (ht : Trees m role)
    (hr : role root = some ⟨o', 0, 0⟩) (hrt : role t = some ⟨o, l, pre⟩)
    (hl : l < 3) (hi : i < 512) (hz : getEntry m (t * 4096) i = 0)
    (hc : role c = none) : leafEntry m' root va = leafEntry m root va := by
  unfold Kernel.leafEntry
  rw [leafTable_eq_reach, leafTable_eq_reach]
  rcases h.reach_cases va ht hr hrt hi hz hc 3 (by omega)
    with heq | ⟨-, hnone, hsome, -, -⟩
  · rw [heq]
    rcases hu : reach m root va 3 with - | u
    · rfl
    · have hru := ht.reach_role hr (by omega) hu
      refine h.getEntry_old hi (pageindex_lt _ _) ?_ (.inl ?_)
      · rintro rfl
        rw [hc] at hru
        cases hru
      · rintro rfl
        rw [hrt] at hru
        injection hru with hru
        injection hru with _ hl3 _
        omega
  · rw [hnone, hsome]
    exact h.getEntry_new (pageindex_lt _ _)

end

end Link

-- ==== adding tables

section Add

variable {role' : Roles} {s' : KState} {k : Nat}

/-- The two stores that make a page a table. -/
theorem linked_stores (hi : i < 512) (htc : t ≠ c) (hc : c < 512)
    (hm : ∀ x, x / 4096 ≠ c → m1 x = m x) :
    Linked m t i c
      (fill (store m1 (t * 4096 + 8 * i) 8 (c * 4096 + 7)) (c * 4096) 4096 0) := by
  refine ⟨fun x hx => fill_of_mem (by omega), ?_, fun x hxc hxt => ?_⟩
  · unfold getEntry
    rw [load_fill_of_disjoint (by omega)]
    exact getEntry_store_same (by omega)
  · rw [fill_of_not_mem fun hin => hxc (by omega), store_of_not_mem hxt, hm x hxc]

/-- More tables, and the same translations. -/
structure Grown (m : ByteMap) (root va : Nat) (m' : ByteMap) : Prop where
  entry : ∀ va', leafEntry m' root va' = leafEntry m root va'
  table : ∀ va', region va' ≠ region va → leafTable m' root va' = leafTable m root va'
  keep : ∀ va' t, leafTable m root va' = some t → leafTable m' root va' = some t

theorem Grown.refl : Grown m root va m :=
  ⟨fun _ => rfl, fun _ _ => rfl, fun _ _ h => h⟩

theorem Grown.trans (h : Grown m root va m1)
    (h' : Grown m1 root va m2) : Grown m root va m2 :=
  ⟨fun va' => (h'.entry va').trans (h.entry va'),
    fun va' hne => (h'.table va' hne).trans (h.table va' hne),
    fun va' t ht => h'.keep va' t (h.keep va' t ht)⟩

/-- The walk that ended at the entry finds the new table, and nothing
below it. -/
theorem Linked.walk (h : Linked m t (pageindex va l) c m') (ht : Trees m role)
    (hr : role root = some ⟨o, 0, 0⟩) (hl : l < 3) (hreach : reach m root va l = some t)
    (hz : follow m t (pageindex va l) = none) (hc : role c = none) :
    reach m' root va (l + 1) = some c
      ∧ (∀ j, l + 1 < j → j ≤ 3 → reach m' root va j = reach m root va j)
      ∧ Grown m root va m' := by
  have hrt := ht.reach_role hr (by omega) hreach
  have hi := pageindex_lt va l
  have hz' := follow_none hz
  have hcases := fun va' => h.reach_cases va' ht hr hrt hi hz' hc
  refine ⟨?_, fun j hj hj3 => ?_,
    fun va' => h.leafEntry ht hr hrt hl hi hz' hc, fun va' hne => ?_, fun va' u hu => ?_⟩
  · rcases hcases va l (by omega) with heq | ⟨hx, -⟩
    · rw [reach_succ_some (heq.trans hreach)]
      exact h.follow_link
    · omega
  · rcases hcases va j hj3 with heq | ⟨hx, -⟩
    · exact heq
    · omega
  · rw [leafTable_eq_reach, leafTable_eq_reach]
    rcases hcases va' 3 (Nat.le_refl 3) with heq | ⟨hl3, -, -, ht', hi3⟩
    · exact heq
    · -- a new last-level table: the address is in its region
      refine absurd ?_ hne
      obtain rfl : l = 2 := by omega
      have hpre : indexPrefix va 2 = indexPrefix va' 2 :=
        congrArg Place.pre (Option.some.inj
          (hrt.symm.trans (ht.reach_role hr (by omega) ht')))
      rw [← indexPrefix_three, ← indexPrefix_three, indexPrefix, ← hpre, hi3]
      rfl
  · rw [leafTable_eq_reach] at hu ⊢
    rcases hcases va' 3 (Nat.le_refl 3) with heq | ⟨-, hnone, -, -, -⟩
    · exact heq.trans hu
    · rw [hnone] at hu
      cases hu

/-- Work on the tree at `root` with pages from the queue: `I` is what it
keeps, `R k` what it does with `k` pages. A page it gets is cleared and
can become a table; a last-level table can be written to. -/
structure Mapper (o : Int) (root : Nat) (I : Roles → KState → Prop)
    (R : Nat → Roles → KState → Roles → KState → Prop) : Prop where
  refl : ∀ {role s}, R 0 role s role s
  trans : ∀ {k k' role s role₁ s₁ role₂ s₂}, R k role s role₁ s₁ →
    R k' role₁ s₁ role₂ s₂ → R (k + k') role s role₂ s₂
  trees : ∀ {role s}, I role s → Trees s.mem role
  isRoot : ∀ {role s}, I role s → role root = some ⟨o, 0, 0⟩
  table : ∀ {role s t l pre}, I role s → role t = some ⟨o, l, pre⟩ → 0 < l →
    t ≠ 0 ∧ t < 512
  page : ∀ {role s}, I role s → (freeQueue s = [] ∧ pagetableAlloc s = (.ok 0, s))
    ∨ ∃ c s', c ≠ 0 ∧ c < 512 ∧ role c = none
        ∧ pagetableAlloc s = (.ok (c * 4096), s')
        ∧ (∀ x, x / 4096 ≠ c → s'.mem x = s.mem x)
        ∧ ∀ {t l pre i m'}, role t = some ⟨o, l, pre⟩ → i < 512 → Linked s.mem t i c m' →
            R 1 role s (role.add c ⟨o, l + 1, pre * 512 + i⟩) { s' with mem := m' }
              ∧ I (role.add c ⟨o, l + 1, pre * 512 + i⟩) { s' with mem := m' }
  leaf : ∀ {role s t pre m'}, I role s → role t = some ⟨o, 3, pre⟩ →
    (∀ x, x / 4096 ≠ t → m' x = s.mem x) →
    R 0 role s role { s with mem := m' } ∧ I role { s with mem := m' }

variable {I : Roles → KState → Prop} {R : Nat → Roles → KState → Roles → KState → Prop}

/-- One level: the table is there, or a free page becomes one, or there
is none. -/
theorem Mapper.tableEntry (h : Mapper o root I R) (hs : I role s) (hl : l < 3)
    (ht : reach s.mem root va l = some t) (hp : perm % 2 = 1) :
    ∃ r role' s' k,
      Kernel.tableEntry (some pagetableAlloc) perm (t * 4096) (pageindex va l) s
          = (.ok r, s')
        ∧ R k role s role' s' ∧ I role' s' ∧ Grown s.mem root va s'.mem
        ∧ ((r = none ∧ k = 0 ∧ freeQueue s' = [] ∧ reach s.mem root va (l + 1) = none
            ∧ s' = s)
          ∨ ∃ c < 512, r = some (c * 4096 + 7) ∧ reach s'.mem root va (l + 1) = some c
              ∧ (∀ j, l + 1 < j → j ≤ 3 → reach s'.mem root va j = reach s.mem root va j)
              ∧ k = if reach s.mem root va (l + 1) = none then 1 else 0) := by
  have hroot := h.isRoot hs
  have hrt := (h.trees hs).reach_role hroot (by omega) ht
  have hnext := reach_succ_some ht
  rcases hfo : follow s.mem t (pageindex va l) with - | c
  · have hnone := hnext.trans hfo
    have hstart : Kernel.tableEntry (some pagetableAlloc) perm (t * 4096)
        (pageindex va l) s
        = (pagetableAlloc >>= fun newPt =>
            if newPt = 0 then pure none
            else do
              Prog.assert (newPt % 4096 = 0)
              setEntry (t * 4096) (pageindex va l) (newPt + 7)
              memzero newPt 4096
              pure (some (newPt + 7)) : KM (Option Nat)) s := by
      unfold Kernel.tableEntry
      rw [get_bind, follow_none hfo, if_neg (by decide)]
      dsimp only
      rw [if_neg (by omega)]
    rw [hstart, if_pos hnone]
    rcases h.page hs with ⟨hnil, heq⟩ | ⟨c, s1, hc0, hc, hcr, heq, hmem, hlinks⟩
    · refine ⟨none, role, s, 0, ?_, h.refl, hs, Grown.refl,
        .inl ⟨rfl, rfl, hnil, hnone, rfl⟩⟩
      rw [bind_of_ok heq]
      rfl
    · have htc : t ≠ c := by
        rintro rfl
        rw [hcr] at hrt
        cases hrt
      have hlink := linked_stores (pageindex_lt va l) htc hc hmem
      obtain ⟨hR, hI⟩ := hlinks hrt (pageindex_lt va l) hlink
      obtain ⟨hnew, hlater, hg⟩ := hlink.walk (h.trees hs) hroot hl ht hfo hcr
      refine ⟨_, _, _, 1, ?_, hR, hI, hg, .inr ⟨c, hc, rfl, hnew, hlater, rfl⟩⟩
      rw [bind_of_ok heq, if_neg (by omega), assert_bind (by omega)]
      rfl
  · obtain ⟨he, hrc⟩ := (h.trees hs).follow_some hrt hl (pageindex_lt _ _) hfo
    refine ⟨_, role, s, 0, tableEntry_some he, h.refl, hs, Grown.refl,
      .inr ⟨c, (h.table hs hrc (Nat.succ_pos l)).2, rfl, hnext.trans hfo,
        fun _ _ _ => rfl, ?_⟩⟩
    rw [hnext, hfo, if_neg (Option.some_ne_none c)]

/-- `lookup_l4pagetable` from level `level` on: it takes exactly the pages
for the tables that are missing, or all that are left. -/
theorem Mapper.lookupFrom (h : Mapper o root I R) (va : Nat) (hp : perm % 2 = 1) :
    ∀ n level t role s, level + n = 3 → I role s → reach s.mem root va level = some t →
      ∃ r role' s' k,
        Kernel.lookupFrom (some pagetableAlloc) perm va n level (t * 4096) s = (.ok r, s')
          ∧ R k role s role' s' ∧ I role' s' ∧ Grown s.mem root va s'.mem
          ∧ ((r = 0 ∧ freeQueue s' = [] ∧ leafTable s'.mem root va = none
              ∧ k < missingFrom s.mem root va n level)
            ∨ ∃ t', r = t' * 4096 ∧ t' ≠ 0 ∧ leafTable s'.mem root va = some t'
                ∧ k = missingFrom s.mem root va n level) := by
  intro n
  induction n with
  | zero =>
    intro level t role s hlev hs ht
    obtain rfl : level = 3 := hlev
    have hrt := (h.trees hs).reach_role (h.isRoot hs) (Nat.le_refl 3) ht
    exact ⟨t * 4096, role, s, 0, rfl, h.refl, hs, Grown.refl,
      .inr ⟨t, rfl, (h.table hs hrt (Nat.succ_pos 2)).1,
        leafTable_eq_reach.trans ht, rfl⟩⟩
  | succ n ih =>
    intro level t role s hlev hs ht
    obtain ⟨e, role1, s1, k1, hentry, hR, hs1, hg, hcase⟩ :=
      h.tableEntry hs (by omega) ht hp
    rw [missingFrom]
    rcases hcase with ⟨rfl, rfl, hnil, hnone, rfl⟩ | ⟨c, hc, rfl, hreach, hlater, hk1⟩
    · refine ⟨0, role1, s1, 0, ?_, hR, hs1, hg, .inl ⟨rfl, hnil, ?_, ?_⟩⟩
      · rw [Kernel.lookupFrom, bind_of_ok hentry]
        rfl
      · rw [leafTable_eq_reach]
        exact reach_none_of_le hnone (by omega)
      · rw [if_pos hnone]
        omega
    · obtain ⟨r, role', s', k2, hrun, hR2, hs', hg2, hcase⟩ :=
        ih (level + 1) c role1 s1 (by omega) hs1 hreach
      have hsame : missingFrom s1.mem root va n (level + 1)
          = missingFrom s.mem root va n (level + 1) :=
        missingFrom_congr fun j hj hj' => hlater j hj (by omega)
      rw [hsame] at hcase
      refine ⟨r, role', s', k1 + k2, ?_, h.trans hR hR2, hs', hg.trans hg2, ?_⟩
      · rw [Kernel.lookupFrom, bind_of_ok hentry]
        dsimp only
        rw [pteAddr_page c (by omega), assert_bind (by omega),
          assert_bind fun _ => by omega, assert_bind fun _ => by omega]
        exact hrun
      · rcases hcase with ⟨hr, hnil, hnone, hlt⟩ | ⟨t', hr, ht0, hleaf, hk2⟩
        · exact .inl ⟨hr, hnil, hnone, by omega⟩
        · exact .inr ⟨t', hr, ht0, hleaf, by omega⟩

theorem pagetableAlloc_eq (hcur : s.cur.pid = o) : pagetableAlloc s = pageAlloc o s := by
  unfold pagetableAlloc
  rw [get_bind, hcur]

/-- A page taken from the queue becomes a table of `o`. -/
theorem MInv.add_table (h : MInv E role used s) (ho : 1 ≤ o)
    (hc : c ∈ freeQueue s) (hinv : MInv E role used s1) (hinfo : s1.pageinfo c = ⟨o, 1⟩)
    (hb : Built o 1 role s role { s1 with mem := m' })
    (ht : Tables m' (role.add c ⟨o, l, pre⟩)) :
    Built o 1 role s (role.add c ⟨o, l, pre⟩) { s1 with mem := m' }
      ∧ MInv E (role.add c ⟨o, l, pre⟩) used { s1 with mem := m' } := by
  have hb' : Built o 1 role s (role.add c ⟨o, l, pre⟩) { s1 with mem := m' } :=
    { hb with
      role := fun pn hn => Roles.add_other fun hpc : pn = c => hn (hpc ▸ hc) }
  refine ⟨hb', h.of_frame hb'.frame (fun q hq => hq ▸ ho) hb.heapPages hb.freeList ht ?_
    hinv.count hinv.cursor⟩
  intro pn p hp
  by_cases hpc : pn = c
  · subst hpc
    rw [Roles.add_same] at hp
    cases hp
    exact ⟨hinfo, show o ≠ 0 by omega⟩
  · rw [Roles.add_other hpc] at hp
    exact hinv.own pn p hp

end Add

-- ==== mapping

/-- The page number of an address, as a page table sees it. -/
def vpn (va : Nat) : Nat := va / 4096 % 2 ^ 36

theorem vpn_of_lt (h : va < 2 ^ 48) : vpn va = va / 4096 :=
  Nat.mod_eq_of_lt (by omega)

theorem vpn_page (h : v < 2 ^ 36) : vpn (v * 4096) = v := by
  rw [vpn, Nat.mul_div_cancel v (by decide), Nat.mod_eq_of_lt h]

/-- The page number gives the region and the last index. -/
theorem region_of_vpn (h : vpn va' = vpn va) :
    region va' = region va ∧ pageindex va' 3 = pageindex va 3 := by
  have h1 : region va' * 512 + pageindex va' 3 = vpn va' := region_pageindex va'
  have h2 : region va * 512 + pageindex va 3 = vpn va := region_pageindex va
  have hi := pageindex_lt va 3
  have hi' := pageindex_lt va' 3
  exact ⟨by omega, by omega⟩

/-- An entry belongs to a page. -/
theorem leafEntry_of_vpn (h : vpn va' = vpn va) :
    leafEntry m root va' = leafEntry m root va := by
  obtain ⟨hrg, hidx⟩ := region_of_vpn h
  unfold leafEntry
  rw [leafTable_of_region hrg, hidx]

/-- Memory after `n` pages from `va` on were mapped to `pa`. -/
structure Mapped (m : ByteMap) (root va pa n perm : Nat) (m' : ByteMap) : Prop where
  entry : ∀ va', leafEntry m' root va'
    = if va / 4096 ≤ vpn va' ∧ vpn va' < va / 4096 + n then
        pa + (vpn va' - va / 4096) * 4096 + perm
      else leafEntry m root va'
  table : ∀ va', region va' ≠ region va → leafTable m' root va' = leafTable m root va'
  here : leafTable m' root va ≠ none
  keep : ∀ va' t, leafTable m root va' = some t → leafTable m' root va' = some t

section Map

variable {pa n : Nat}

/-- Writing to a last-level table of a process. -/
theorem MInv.write_leaf (h : MInv E role used s) (ho : 1 ≤ o)
    (hrt : role t = some ⟨o, 3, pre⟩) (hm : ∀ x, x / 4096 ≠ t → m' x = s.mem x) :
    Built o 0 role s role { s with mem := m' }
      ∧ MInv E role used { s with mem := m' } := by
  have hinfo := (h.own t _ hrt).1
  have hb : Built o 0 role s role { s with mem := m' } := by
    refine Built.of_mem fun x hx => hm x fun hxt => hx ?_
    rw [hxt, hinfo]
  refine ⟨hb, h.of_frame hb.frame (fun q hq => hq ▸ ho) rfl rfl ?_ h.own h.count h.cursor⟩
  refine h.tables.congr fun pn p hp hl x h1 h2 => hm x fun hxt => ?_
  have hpt : pn = t := by omega
  rw [hpt, hrt] at hp
  cases hp
  exact absurd hl (Nat.lt_irrefl 3)

section

variable (ht : Trees m role) (hr : role root = some ⟨o, 0, 0⟩)
  (hleaf : leafTable m root va = some t)

include ht hr hleaf

/-- The entries of one last-level table rewritten, seen from the
root. -/
theorem Trees.leafEntry_run (hva : va < 2 ^ 47) (hreg : pageindex va 3 + n ≤ 512)
    (hent : ∀ j < n, getEntry m' (t * 4096) (pageindex va 3 + j)
      = pa + j * 4096 + perm)
    (hout : ∀ x, (x < t * 4096 + 8 * pageindex va 3
      ∨ t * 4096 + 8 * (pageindex va 3 + n) ≤ x) → m' x = m x) (va' : Nat) :
    leafTable m' root va' = leafTable m root va'
      ∧ leafEntry m' root va'
        = if va / 4096 ≤ vpn va' ∧ vpn va' < va / 4096 + n then
            pa + (vpn va' - va / 4096) * 4096 + perm
          else leafEntry m root va' := by
  have hrt := ht.leafTable_some hr hleaf
  have hi' := pageindex_lt va' 3
  have htab : leafTable m' root va' = leafTable m root va' := by
    refine ht.leafTable_congr hr fun pn l q hp hl x h1 h2 => hout x ?_
    have hne : pn ≠ t := by
      rintro rfl
      rw [hrt] at hp
      cases hp
      exact absurd hl (Nat.lt_irrefl 3)
    omega
  -- page numbers, split into region and index
  have hv : region va * 512 + pageindex va 3 = va / 4096 := by
    rw [region_pageindex]
    exact Nat.mod_eq_of_lt (by omega)
  have hv' : region va' * 512 + pageindex va' 3 = vpn va' := region_pageindex va'
  refine ⟨htab, ?_⟩
  by_cases hsame : leafTable m root va' = some t
  · have hrg : region va = region va' := congrArg Place.pre (Option.some.inj
      (hrt.symm.trans (ht.leafTable_some hr hsame)))
    unfold leafEntry
    rw [htab, hsame]
    dsimp only
    by_cases hin : va / 4096 ≤ vpn va' ∧ vpn va' < va / 4096 + n
    · have hj : pageindex va' 3 = pageindex va 3 + (vpn va' - va / 4096) := by
        omega
      rw [if_pos hin, hj, hent _ (by omega)]
    · rw [if_neg hin]
      exact load_congr fun x h1 h2 => hout x (by omega)
  · have hne : ¬ (va / 4096 ≤ vpn va' ∧ vpn va' < va / 4096 + n) := by
      intro hin
      have hrg : region va' = region va := by omega
      rw [leafTable_of_region hrg] at hsame
      exact hsame hleaf
    rw [if_neg hne]
    unfold leafEntry
    rw [htab]
    rcases hu : leafTable m root va' with - | u
    · rfl
    · have hut : u ≠ t := fun hut => hsame (hut ▸ hu)
      exact load_congr fun x h1 h2 => hout x (by omega)

/-- One entry rewritten: one page translated differently. -/
theorem Trees.leafEntry_page (hv : v < 2 ^ 64) (va' : Nat) :
    leafEntry (store m (t * 4096 + 8 * pageindex va 3) 8 v) root va'
      = if vpn va' = vpn va then v else leafEntry m root va' := by
  rw [ht.leafEntry_store (ht.leafTable_some hr hleaf) (pageindex_lt va 3) hv hr]
  by_cases hsame : vpn va' = vpn va
  · obtain ⟨hrg, hidx⟩ := region_of_vpn hsame
    rw [if_pos hsame, if_pos ⟨(leafTable_of_region hrg).trans hleaf, hidx⟩]
  · rw [if_neg hsame, if_neg fun hh => hsame (ht.leafTable_inj hr hh.1 hleaf hh.2)]

end

/-- Pages that `virtual_memory_map` maps with one last-level table. -/
def InRegion (va pa n perm : Nat) : Prop :=
  va % 4096 = 0 ∧ 0 < n ∧ pageindex va 3 + n ≤ 512 ∧ va + n * 4096 ≤ 2 ^ 47
    ∧ pa % 4096 = 0 ∧ pa + n * 4096 ≤ 0x200000 ∧ perm < 4096 ∧ perm % 2 = 1

instance (va pa n perm : Nat) : Decidable (InRegion va pa n perm) :=
  inferInstanceAs (Decidable (_ ∧ _))

/-- `virtual_memory_map` with an allocator, inside one region: it takes
the pages for the tables that are missing and maps the range, or it takes
what is left and maps nothing. -/
theorem Mapper.map {I : Roles → KState → Prop}
    {R : Nat → Roles → KState → Roles → KState → Prop} (h : Mapper o root I R)
    (hs : I role s) (va pa n perm : Nat) (hin : InRegion va pa n perm) :
    ∃ r role' s' k, virtualMemoryMap (root * 4096) va pa (n * 4096) perm
          (some pagetableAlloc) s = (.ok r, s')
      ∧ R k role s role' s' ∧ I role' s'
      ∧ ((r = -1 ∧ freeQueue s' = [] ∧ leafTable s'.mem root va = none
            ∧ Grown s.mem root va s'.mem ∧ k < missing s.mem root va)
        ∨ (r = 0 ∧ Mapped s.mem root va pa n perm s'.mem
            ∧ k = missing s.mem root va)) := by
  obtain ⟨hva, hn, hreg, hlow, hpa, hpa', hperm, hodd⟩ := hin
  obtain ⟨r, role', s1, k, hrun, hR, hs1, hg, hcase⟩ :=
    h.lookupFrom va hodd 3 0 root role s rfl hs rfl
  obtain ⟨n, rfl⟩ : ∃ k, n = k + 1 := ⟨n - 1, by omega⟩
  have hdiv : va / 2 ^ 21 % 2 ^ 32 ≠ 2 ^ 32 - 1 := by omega
  have hsz : (n + 1) * 4096 / 4096 = n + 1 := Nat.mul_div_cancel _ (by decide)
  have hu : u64 (va + (n + 1) * 4096) = va + (n + 1) * 4096 :=
    u64_of_lt (by omega)
  rw [virtualMemoryMap_loop hva (by omega) (.inl (by omega)) hpa hpa' hperm
    (by omega), hsz]
  rcases hcase with ⟨rfl, hnil, hnone, hless⟩ | ⟨t, rfl, ht0, hleaf, hk⟩
  · refine ⟨-1, role', s1, k, ?_, hR, hs1, .inl ⟨rfl, hnil, hnone, hg, hless⟩⟩
    have hl4 : refreshL4 (some pagetableAlloc) (root * 4096) va perm
        (2 ^ 32 - 1) 0 s = (.ok 0, s1) := by
      unfold refreshL4
      rw [if_pos hdiv]
      exact hrun
    rw [mapLoop, bind_of_ok hl4, if_neg fun h => h.2 rfl,
      if_neg fun h => h rfl, if_pos hodd]
    rfl
  · have hroot := h.isRoot hs1
    have hrt := (h.trees hs1).leafTable_some hroot hleaf
    obtain ⟨m', hmap, hent, hout⟩ := mapLoop_cached (some pagetableAlloc)
      (root * 4096) hodd ht0 (n + 1) va pa s1 hreg (by omega) (by omega)
    obtain ⟨hR2, hs2⟩ := h.leaf hs1 hrt fun x hx => hout x (by omega)
    have hsee := (h.trees hs1).leafEntry_run hroot hleaf (by omega) hreg hent hout
    refine ⟨0, role', { s1 with mem := m' }, k, ?_, h.trans hR hR2, hs2,
      .inr ⟨rfl, ⟨fun va' => ?_, fun va' hne => ?_, ?_, fun va' u hu => ?_⟩, hk⟩⟩
    · rw [mapLoop_refresh hdiv hrun]
      exact hmap
    · rw [(hsee va').2, hg.entry]
    · rw [(hsee va').1, hg.table va' hne]
    · rw [(hsee va).1, hleaf]
      exact Option.some_ne_none t
    · rw [(hsee va').1]
      exact hg.keep va' u hu

/-- The kernel works for `o`, whose tree is at `root`. -/
structure Tending (E : KEnv) (used : List Blk) (o : Int) (root : Nat) (role : Roles)
    (s : KState) : Prop where
  inv : MInv E role used s
  cur : s.cur.pid = o
  isRoot : role root = some ⟨o, 0, 0⟩

theorem Tending.mapper (ho : 1 ≤ o) :
    Mapper o root (Tending E used o root) (Built o) where
  refl := Built.refl
  trans := Built.trans
  trees := fun h => h.inv.tables.toTrees
  isRoot := fun h => h.isRoot
  table := fun h hrt _ => ⟨h.inv.role_pos hrt ho, h.inv.tables.low _ _ hrt⟩
  page := by
    rintro role s ⟨h, hcur, hr⟩
    rw [pagetableAlloc_eq hcur]
    rcases h.page_alloc (o := o) (by omega)
      with hnil | ⟨c, rest, s1, hq, hc0, hc, hcr, heq, hb, hinv, hinfo, hmem, -⟩
    · exact .inl hnil
    have hmem : ∀ x, x / 4096 ≠ c → s1.mem x = s.mem x := fun x hx => by
      rw [hmem, fill_of_not_mem fun hin => hx (by omega)]
    refine .inr ⟨c, s1, hc0, hc, hcr, heq, hmem, ?_⟩
    intro t l pre i m' hrt hi hlink
    -- the new page and the entry are pages of `o`
    have hb2 : Built o 1 role s role { s1 with mem := m' } := by
      refine hb.trans (Built.of_mem fun x hx => ?_)
      have hxc : x / 4096 ≠ c := by
        rintro rfl
        rw [hinfo] at hx
        exact hx rfl
      have hxt : x / 4096 ≠ t := by
        intro hxt
        rw [hxt, (hinv.own t _ hrt).1] at hx
        exact hx rfl
      rw [hmem x hxc]
      exact hlink.keep x hxc (by omega)
    obtain ⟨hb3, hinv3⟩ := h.add_table ho (hq ▸ List.mem_cons_self) hinv hinfo hb2
      (hlink.tables h.tables hrt hi hcr hc)
    refine ⟨hb3, hinv3, ?_, hb3.role_some h hr⟩
    rw [hb3.cur, hcur]
  leaf := by
    rintro role s t pre m' ⟨h, hcur, hr⟩ hrt hm
    obtain ⟨hb, hinv⟩ := h.write_leaf ho hrt hm
    exact ⟨hb, hinv, hcur, hr⟩

/-- `virtual_memory_map` of one page without an allocator, at any
address. -/
theorem MInv.map_none (h : MInv E role used s) (ho : 1 ≤ o)
    (hr : role root = some ⟨o, 0, 0⟩) (hva : va % 4096 = 0)
    (h64 : va < 2 ^ 64) (hpa : pa % 4096 = 0) (hpa' : pa + 4096 ≤ 0x200000)
    (hperm : perm < 4096) (hodd : perm % 2 = 1) :
    ∃ r s', virtualMemoryMap (root * 4096) va pa 4096 perm none s = (.ok r, s')
      ∧ Built o 0 role s role s' ∧ MInv E role used s'
      ∧ (∀ va', leafTable s'.mem root va' = leafTable s.mem root va')
      ∧ ((r = -1 ∧ s' = s
            ∧ (va / 2 ^ 21 % 2 ^ 32 = 2 ^ 32 - 1 ∨ leafTable s.mem root va = none))
        ∨ (r = 0 ∧ ∀ va', leafEntry s'.mem root va'
            = if vpn va' = vpn va then pa + perm
              else leafEntry s.mem root va')) := by
  by_cases hidx : va / 2 ^ 21 % 2 ^ 32 = 2 ^ 32 - 1
  · exact ⟨-1, s, h.tables.virtualMemoryMap_none hr hva h64 hpa hpa' hperm hodd
      (.inl hidx), Built.refl, h, fun _ => rfl, .inl ⟨rfl, rfl, .inl hidx⟩⟩
  rcases hleaf : leafTable s.mem root va with - | t
  · exact ⟨-1, s, h.tables.virtualMemoryMap_none hr hva h64 hpa hpa' hperm hodd
      (.inr hleaf), Built.refl, h, fun _ => rfl, .inl ⟨rfl, rfl, .inr rfl⟩⟩
  have hrt := h.tables.leafTable_some hr hleaf
  have hi := pageindex_lt va 3
  have hstore : ∀ x, x / 4096 ≠ t → store s.mem
      (t * 4096 + 8 * pageindex va 3) 8 (pa + perm) x = s.mem x :=
    fun x hx => store_of_not_mem fun hin => hx (by omega)
  obtain ⟨hb, hinv⟩ := h.write_leaf ho hrt hstore
  refine ⟨0, _, h.tables.virtualMemoryMap_one hr hva h64 hpa hpa' hperm hodd hidx
    hleaf (h.role_pos hrt ho), hb, hinv,
    fun va' => h.tables.leafTable_store hrt hi hr, .inr ⟨rfl, fun va' => ?_⟩⟩
  exact h.tables.leafEntry_page hr hleaf (by omega) va'

end Map

end RojocOS.Kernel
