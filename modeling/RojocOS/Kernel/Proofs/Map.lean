/-
Mapping many pages, and the kernel's own page table.

The loop of `virtual_memory_map` looks the last-level table up once per
2 MiB and then stores entry after entry in it. `mapLoop_refresh` splits
off the lookup, `mapLoop_cached` is the run of stores. Everything the
kernel maps with more than one page (its image, and the whole of
physical memory in its own table) stays inside one such table.

`KernelTree` is what the rest of the development needs to know of
`kernel_pagetable`: it has the last-level table of the first 2 MiB, so
mapping a page of physical memory there never fails.
-/
import RojocOS.Kernel.Proofs.Tables

namespace RojocOS.Kernel

open ByteMap Prog

variable {d i i' p perm t t' v va : Nat} {m m' : ByteMap} {role : Roles} {s : KState}

-- ==== the loop

section Loop

variable {alloc : Option (KM Nat)} {pt perm va pa last l4 n t : Nat} {s s₁ : KState}

/-- The first page of a 2 MiB region: a lookup, then the loop with the
table it found. -/
theorem mapLoop_refresh (hne : va / 2 ^ 21 % 2 ^ 32 ≠ last)
    (h : lookupL4pagetable alloc pt va perm s = (.ok (t * 4096), s₁)) :
    mapLoop alloc pt perm (n + 1) va pa last l4 s
      = mapLoop alloc pt perm (n + 1) va pa (va / 2 ^ 21 % 2 ^ 32) (t * 4096) s₁ := by
  have h1 : refreshL4 alloc pt va perm last l4 s = (.ok (t * 4096), s₁) := by
    unfold refreshL4
    rw [if_pos hne, h]
  have h2 : refreshL4 alloc pt va perm (va / 2 ^ 21 % 2 ^ 32) (t * 4096) s₁
      = (.ok (t * 4096), s₁) := by
    unfold refreshL4
    rw [if_neg fun h => h rfl]
    rfl
  rw [mapLoop, mapLoop, bind_of_ok h1, bind_of_ok h2]

/-- The next page has the next index. -/
theorem pageindex_succ (va : Nat) (h : pageindex va 3 + 1 < 512) :
    pageindex (va + 4096) 3 = pageindex va 3 + 1
      ∧ (va + 4096) / 2 ^ 21 = va / 2 ^ 21 := by
  have e : ∀ x : Nat, x / 2 ^ 21 = x / 4096 / 512 := fun x => by
    omega
  rw [pageindex_three] at h ⊢
  rw [pageindex_three, e, e, Nat.add_div_right va (by decide : 0 < 4096)]
  generalize va / 4096 = x at *
  omega

/-- Inside one last-level table, the loop stores the entries in
order. -/
theorem mapLoop_cached (alloc : Option (KM Nat)) (pt : Nat)
    (hp : perm % 2 = 1) (ht : t ≠ 0) :
    ∀ n va pa s, pageindex va 3 + n ≤ 512 → va + n * 4096 < 2 ^ 64 →
      pa + n * 4096 + perm < 2 ^ 64 →
      ∃ m', mapLoop alloc pt perm n va pa (va / 2 ^ 21 % 2 ^ 32)
            (t * 4096) s = (.ok 0, { s with mem := m' })
        ∧ (∀ j < n, getEntry m' (t * 4096) (pageindex va 3 + j)
            = pa + j * 4096 + perm)
        ∧ ∀ x, (x < t * 4096 + 8 * pageindex va 3
              ∨ t * 4096 + 8 * (pageindex va 3 + n) ≤ x) → m' x = s.mem x := by
  intro n
  induction n with
  | zero =>
    intro va pa s _ _ _
    exact ⟨s.mem, rfl, fun j hj => absurd hj (Nat.not_lt_zero j), fun x _ => rfl⟩
  | succ n ih =>
    intro va pa s hi hva hpa
    have hl4 : refreshL4 alloc pt va perm (va / 2 ^ 21 % 2 ^ 32)
        (t * 4096) s = (.ok (t * 4096), s) := by
      unfold refreshL4
      rw [if_neg fun h => h rfl]
      rfl
    rw [mapLoop, bind_of_ok hl4, if_pos ⟨hp, by omega⟩,
      bind_of_ok (x := setEntry (t * 4096) _ _) rfl]
    have hu : u64 (va + 4096) = va + 4096 := u64_of_lt (by omega)
    rw [hu]
    by_cases hn : n = 0
    · subst hn
      refine ⟨_, rfl, fun j hj => ?_, fun x hx => ?_⟩
      · have hj0 : j = 0 := by omega
        subst hj0
        rw [Nat.add_zero, getEntry_store_same (by omega)]
        omega
      · exact store_of_not_mem (by omega)
    · obtain ⟨hidx, hreg⟩ := pageindex_succ va (by omega)
      obtain ⟨m', hrun, hent, hout⟩ := ih (va + 4096) (pa + 4096) { s with
          mem := store s.mem (t * 4096 + 8 * pageindex va 3) 8 (pa + perm) }
        (by omega) (by omega) (by omega)
      rw [hreg] at hrun
      refine ⟨m', hrun, fun j hj => ?_, fun x hx => ?_⟩
      · rcases j with - | j
        · -- the entry just stored is below those of the rest
          have hsame : getEntry m' (t * 4096) (pageindex va 3)
              = getEntry (store s.mem (t * 4096 + 8 * pageindex va 3) 8
                  (pa + perm)) (t * 4096) (pageindex va 3) :=
            load_congr fun x h1 h2 => hout x (by omega)
          rw [Nat.add_zero, hsame, getEntry_store_same (by omega)]
          omega
        · have := hent j (by omega)
          rw [hidx, Nat.add_right_comm] at this
          rw [← Nat.add_assoc, this]
          omega
      · rw [hout x (by omega)]
        exact store_of_not_mem (by omega)

end Loop

-- ==== the kernel's own table

section KernelTables

variable (E : KEnv)

/-- The page number of `kernel_pagetables`. -/
def KEnv.ktab : Nat := E.kernelPagetables / 4096

theorem KEnv.kernelPagetables_eq : E.kernelPagetables = E.ktab * 4096 := by
  have h := E.pagetables_aligned
  unfold KEnv.ktab
  omega

theorem KEnv.ktab_bounds : 0x40 ≤ E.ktab ∧ E.ktab + 5 ≤ 0x9F := by
  have h1 := E.pagetables_start
  have h2 := E.pagetables_end
  have h3 := E.end_le
  have h4 := E.kernelPagetables_eq
  omega

/-- The places of `kernel_pagetables[0 .. 5)`. -/
def kernelRoles : Roles := fun pn =>
  if pn = E.ktab then some ⟨-2, 0, 0⟩
  else if pn = E.ktab + 1 then some ⟨-2, 1, 0⟩
  else if pn = E.ktab + 2 then some ⟨-2, 2, 0⟩
  else if pn = E.ktab + 3 then some ⟨-2, 3, 0⟩
  else if pn = E.ktab + 4 then some ⟨-2, 3, 1⟩
  else none

/-- What the kernel's tree offers: the last-level table for physical
memory. -/
structure KernelTree (m : ByteMap) (role : Roles) : Prop where
  root : role E.ktab = some ⟨-2, 0, 0⟩
  leaf : ∀ va, va < 0x200000 → leafTable m E.ktab va = some (E.ktab + 3)

variable {E}

theorem pageindex_low (va : Nat) (h : va < 0x200000) :
    pageindex va 0 = 0 ∧ pageindex va 1 = 0 ∧ pageindex va 2 = 0
      ∧ pageindex va 3 = va / 4096 := by
  refine ⟨?_, ?_, ?_, ?_⟩
  · rw [pageindex_zero, Nat.div_eq_of_lt (by omega)]
  · rw [pageindex_one, Nat.div_eq_of_lt (by omega)]
  · rw [pageindex_two, Nat.div_eq_of_lt (by omega)]
  · rw [pageindex_three, Nat.mod_eq_of_lt (by omega)]

/-- One store, seen from any entry. -/
theorem getEntry_store (hi : i < 512) (hi' : i' < 512) (hv : v < 2 ^ 64) :
    getEntry (store m (t * 4096 + 8 * i) 8 v) (t' * 4096) i'
      = if t' = t ∧ i' = i then v else getEntry m (t' * 4096) i' := by
  by_cases h : t' = t ∧ i' = i
  · obtain ⟨rfl, rfl⟩ := h
    rw [if_pos ⟨rfl, rfl⟩, getEntry_store_same hv]
  · rw [if_neg h]
    refine getEntry_store_other hi hi' ?_
    by_cases htt : t = t'
    · exact .inr fun h3 => h ⟨htt.symm, h3.symm⟩
    · exact .inl htt

/-- The first half of `virtual_memory_init`, with page numbers. -/
theorem kernelTables_eq (m : ByteMap) :
    kernelTables E m
      = store (store (store (store (fill m (E.ktab * 4096) (5 * 4096) 0)
          (E.ktab * 4096 + 8 * 0) 8 ((E.ktab + 1) * 4096 + 7))
          ((E.ktab + 1) * 4096 + 8 * 0) 8 ((E.ktab + 2) * 4096 + 7))
          ((E.ktab + 2) * 4096 + 8 * 0) 8 ((E.ktab + 3) * 4096 + 7))
          ((E.ktab + 2) * 4096 + 8 * 1) 8 ((E.ktab + 4) * 4096 + 7) := by
  unfold kernelTables
  rw [E.kernelPagetables_eq]
  simp only [Nat.add_mul, Nat.one_mul, Nat.mul_zero, Nat.mul_one, Nat.add_zero]

/-- The entries of the five tables after it. -/
theorem kernelTables_entry (m : ByteMap) (hd : d < 5) (hi : i < 512) :
    getEntry (kernelTables E m) ((E.ktab + d) * 4096) i
      = if d < 3 ∧ i = 0 then (E.ktab + d + 1) * 4096 + 7
        else if d = 2 ∧ i = 1 then (E.ktab + 4) * 4096 + 7 else 0 := by
  obtain ⟨hlo, hhi⟩ := E.ktab_bounds
  have hz : getEntry (fill m (E.ktab * 4096) (5 * 4096) 0)
      ((E.ktab + d) * 4096) i = 0 := load_fill_zero (by omega)
  rw [kernelTables_eq, getEntry_store (by decide) hi (by omega),
    getEntry_store (by decide) hi (by omega), getEntry_store (by decide) hi (by omega),
    getEntry_store (by decide) hi (by omega), hz]
  generalize E.ktab = k at *
  grind

theorem kernelTables_tables (m : ByteMap) :
    Tables (kernelTables E m) (kernelRoles E) := by
  obtain ⟨hlo, hhi⟩ := E.ktab_bounds
  refine ⟨⟨fun pn o l pre h hl i hi => ?_⟩, fun pn p h => ?_⟩
  · -- a table above the last level is one of the first three
    have hd : ∃ d < 3, pn = E.ktab + d ∧ o = -2 ∧ l = d ∧ pre = 0 := by
      unfold kernelRoles at h
      rcases Nat.lt_or_ge pn E.ktab with hlt | hge
      · grind
      · exact ⟨pn - E.ktab, by grind⟩
    obtain ⟨d, hd, rfl, rfl, rfl, rfl⟩ := hd
    rw [kernelTables_entry m (by omega) hi]
    by_cases h0 : i = 0
    · subst h0
      refine .inr ⟨E.ktab + l + 1, if_pos ⟨hl, rfl⟩, ?_⟩
      unfold kernelRoles
      grind
    · rw [if_neg fun h => h0 h.2]
      by_cases h1 : l = 2 ∧ i = 1
      · obtain ⟨rfl, rfl⟩ := h1
        refine .inr ⟨E.ktab + 4, if_pos ⟨rfl, rfl⟩, ?_⟩
        unfold kernelRoles
        grind
      · exact .inl (if_neg h1)
  · unfold kernelRoles at h
    grind

theorem kernelTables_leaf (m : ByteMap) (h : va < 0x200000) :
    leafTable (kernelTables E m) E.ktab va = some (E.ktab + 3) := by
  obtain ⟨h0, h1, h2, -⟩ := pageindex_low va h
  have step : ∀ d < 3, follow (kernelTables E m) (E.ktab + d) 0
      = some (E.ktab + d + 1) := by
    intro d hd
    have he := kernelTables_entry (E := E) m (d := d) (i := 0) (by omega) (by decide)
    rw [if_pos ⟨hd, rfl⟩] at he
    unfold follow
    have hdiv : ((E.ktab + d + 1) * 4096 + 7) / 4096 = E.ktab + d + 1 := by
      omega
    rw [he, if_neg (by omega), hdiv]
  unfold leafTable
  rw [h0, h1, h2]
  have s0 := step 0 (by decide)
  rw [Nat.add_zero] at s0
  rw [s0, Option.bind_some, step 1 (by decide), Option.bind_some, step 2 (by decide)]

/-- `virtual_memory_init` builds the kernel's tree and maps physical
memory in it. -/
theorem virtualMemoryInit_spec (s : KState) :
    ∃ m', virtualMemoryInit E s = (.ok (), { s with mem := m' })
      ∧ Tables m' (kernelRoles E) ∧ KernelTree E m' (kernelRoles E)
      ∧ (∀ va < 0x200000, leafEntry m' E.ktab va = va / 4096 * 4096 + 7)
      ∧ ∀ x, (x < E.kernelPagetables ∨ E.kernelPagetables + 5 * 4096 ≤ x) →
          m' x = s.mem x := by
  obtain ⟨hlo, hhi⟩ := E.ktab_bounds
  have hroot : kernelRoles E E.ktab = some ⟨-2, 0, 0⟩ := if_pos rfl
  have hleafRole : kernelRoles E (E.ktab + 3) = some ⟨-2, 3, 0⟩ := by
    unfold kernelRoles
    grind
  have ht := kernelTables_tables (E := E) s.mem
  have hlookup : lookupL4pagetable none (E.ktab * 4096) 0 7
      { s with mem := kernelTables E s.mem }
      = (.ok ((E.ktab + 3) * 4096), { s with mem := kernelTables E s.mem }) := by
    rw [Tables.lookupL4pagetable_eq ht hroot, kernelTables_leaf s.mem (by decide)]
  obtain ⟨m', hrun, hent, hout⟩ := mapLoop_cached none
    (E.ktab * 4096) (show 7 % 2 = 1 by decide) (show E.ktab + 3 ≠ 0 by omega) 512 0 0 { s with mem := kernelTables E s.mem } (by decide)
    (by decide) (by decide)
  have hp3 : pageindex 0 3 = 0 := by decide
  rw [hp3] at hent hout
  -- the loop stays in the fourth table, so the upper levels are as they were
  have hframe : ∀ pn p, kernelRoles E pn = some p → p.level < 3 →
      ∀ x, pn * 4096 ≤ x → x < pn * 4096 + 4096 → m' x = kernelTables E s.mem x := by
    intro pn p hp hl x h1 h2
    have hne : pn ≠ E.ktab + 3 := by
      rintro rfl
      rw [hleafRole] at hp
      cases hp
      exact absurd hl (Nat.lt_irrefl 3)
    exact hout x (by omega)
  have hleaf : ∀ va < 0x200000, leafTable m' E.ktab va = some (E.ktab + 3) := by
    intro va hva
    rw [ht.leafTable_congr hroot fun pn l pre hp => hframe pn _ hp,
      kernelTables_leaf s.mem hva]
  refine ⟨m', ?_, ht.congr hframe, ⟨hroot, hleaf⟩, fun va hva => ?_, fun x hx => ?_⟩
  · unfold virtualMemoryInit
    rw [bind_of_ok (x := Prog.modify _) rfl, E.kernelPagetables_eq]
    have hmap : virtualMemoryMap (E.ktab * 4096) 0 0 0x200000 7 none
        { s with mem := kernelTables E s.mem }
        = (.ok 0, { s with mem := m' }) := by
      rw [virtualMemoryMap_loop (by decide) (by decide) (by decide)
        (by decide) (by decide) (by decide) (by omega)]
      rw [mapLoop_refresh (by decide) hlookup]
      exact hrun
    rw [bind_of_ok hmap]
    rfl
  · obtain ⟨-, -, -, h3⟩ := pageindex_low va hva
    unfold leafEntry
    rw [hleaf va hva]
    have := hent (va / 4096) (by omega)
    rw [Nat.zero_add] at this
    dsimp only
    rw [h3, this]
    omega
  · rw [E.kernelPagetables_eq] at hx
    rw [hout x (by grind)]
    show kernelTables E s.mem x = s.mem x
    rw [kernelTables_eq, store_of_not_mem (by grind), store_of_not_mem (by grind),
      store_of_not_mem (by grind), store_of_not_mem (by grind),
      fill_of_not_mem (by grind)]

/-- Mapping a page of physical memory in the kernel's tree. -/
theorem KernelTree.map_page (ht : Tables s.mem role) (hk : KernelTree E s.mem role)
    (hp : p % 4096 = 0) (hhi : p + 4096 ≤ 0x200000) (hperm : perm < 4096)
    (hodd : perm % 2 = 1) :
    virtualMemoryMap E.kernelPagetables p p 4096 perm none s
      = (.ok 0, { s with
          mem := store s.mem ((E.ktab + 3) * 4096 + 8 * (p / 4096)) 8 (p + perm) }) := by
  obtain ⟨-, -, -, h3⟩ := pageindex_low p (by omega)
  rw [E.kernelPagetables_eq, ht.virtualMemoryMap_one hk.root hp (by omega) hp
    hhi hperm hodd ?_ (hk.leaf p (by omega)) (by omega), h3]
  rw [Nat.div_eq_of_lt (by omega)]
  decide

/-- The kernel's tree after a change elsewhere, or to last-level
entries. -/
theorem KernelTree.congr (ht : Tables m role) (hk : KernelTree E m role)
    (h : ∀ pn p, role pn = some p → p.level < 3 →
      ∀ x, pn * 4096 ≤ x → x < pn * 4096 + 4096 → m' x = m x) :
    KernelTree E m' role := by
  refine ⟨hk.root, fun va hva => ?_⟩
  rw [ht.leafTable_congr hk.root fun pn l pre hp => h pn _ hp, hk.leaf va hva]

end KernelTables

end RojocOS.Kernel
