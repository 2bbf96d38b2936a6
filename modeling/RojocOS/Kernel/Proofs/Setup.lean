/-
`process_setup`.

A new process gets a root table, the kernel's mappings, the pages of its
program and a stack. The kernel's mappings are made without looking at
the result. They can only fail when the pages have run out, and then the
loader, which does look, finds none either: a `process_setup` that
returns has mapped the kernel (`processSetup_spec`).

`Loading` is the state in between: the table is in order, the kernel is
mapped, and the only last-level table is the one of the first 2 MiB. The
last part is what keeps the stack, whose page may be missing too, from
being mapped to page 0.
-/
import RojocOS.Kernel.Proofs.Space

namespace RojocOS.Kernel

open ByteMap Prog

variable {E : KEnv} {role role' : Roles} {used : List Blk} {s s' : KState}
  {o : Int} {root k n pa perm pn v va : Nat} {D D' V V' : Nat → Prop}

-- ==== a new root

/-- `pagetable_alloc` for a new tree: an empty table of `o`. -/
theorem MInv.new_root (h : MInv E role used s) (hcur : s.cur.pid = o) (ho : 1 ≤ o) :
    (freeQueue s = [] ∧ pagetableAlloc s = (.ok 0, s))
      ∨ ∃ c rest s', freeQueue s = c :: rest ∧ c ≠ 0
          ∧ pagetableAlloc s = (.ok (c * 4096), s')
          ∧ Built o 1 role s (role.add c ⟨o, 0, 0⟩) s'
          ∧ MInv E (role.add c ⟨o, 0, 0⟩) used s'
          ∧ ∀ va l, 0 < l → reach s'.mem c va l = none := by
  rw [pagetableAlloc_eq hcur]
  rcases h.page_alloc (o := o) (by omega)
    with hnil | ⟨c, rest, s1, hq, hc0, hc512, hcr, heq, hb, hinv, hinfo, hmem, -⟩
  · exact .inl hnil
  have hzero : ∀ j < 512, getEntry s1.mem (c * 4096) j = 0 := fun j hj => by
    rw [hmem]
    exact load_fill_zero (by omega)
  have htables : Tables s1.mem (role.add c ⟨o, 0, 0⟩) := by
    refine ⟨⟨fun pn q l pre hp hl j hj => ?_⟩, fun pn p hp => ?_⟩
    · by_cases hpc : pn = c
      · exact .inl (hpc ▸ hzero j hj)
      rw [Roles.add_other hpc] at hp
      rcases hinv.tables.upper pn q l pre hp hl j hj with h0 | ⟨d, hd, hrd⟩
      · exact .inl h0
      · refine .inr ⟨d, hd, ?_⟩
        rw [Roles.add_other fun hdc => by rw [hdc, hcr] at hrd; cases hrd]
        exact hrd
    · by_cases hpc : pn = c
      · exact hpc ▸ hc512
      · rw [Roles.add_other hpc] at hp
        exact hinv.tables.low pn p hp
  obtain ⟨hb', hinv'⟩ := h.add_table ho (hq ▸ List.mem_cons_self) hinv hinfo hb htables
  refine .inr ⟨c, rest, s1, hq, hc0, heq, hb', hinv', fun va l hl => ?_⟩
  refine reach_none_of_le ?_ hl
  rw [reach_succ_some (rfl)]
  exact if_pos (hzero _ (pageindex_lt _ _))

-- ==== while it is built

/-- A process while it is built: `V` has the pages mapped for the kernel,
`D` those that are mapped at all. -/
structure Loading (E : KEnv) (V : Nat → Prop) (role : Roles)
    (used : List Blk) (s : KState) (o : Int) (root : Nat) (D : Nat → Prop) : Prop where
  inv : MInv E role used s
  space : Space role s o root
  kernel : KMap V s.mem root
  low : ∀ va, region va = 0 → leafTable s.mem root va ≠ none
  high : ∀ va, region va ≠ 0 → leafTable s.mem root va = none
  dom : ∀ va, leafEntry s.mem root va ≠ 0 → D (vpn va)

/-- The page is mapped, for the process, to a page of its own. -/
def UserMap (role : Roles) (s : KState) (o : Int) (root v : Nat) : Prop :=
  ∃ pn, leafEntry s.mem root (v * 4096) = pn * 4096 + 7 ∧ OwnPage role s o pn

theorem region_zero_iff (va : Nat) : region va = 0 ↔ vpn va < 512 := by
  have h1 : region va * 512 + pageindex va 3 = vpn va := region_pageindex va
  have hi := pageindex_lt va 3
  omega

theorem region_low (h : va < 0x200000) : region va = 0 := by
  rw [region_zero_iff, vpn_of_lt (by omega)]
  omega

/-- Mapping pages of the first 2 MiB. -/
theorem Loading.mapped
    (h : Loading E V role used s o root D) (hw : Work o k role s role' s')
    (hinv : MInv E role' used s')
    (hm : Mapped s.mem root va pa n perm s'.mem) (hva : va < 0x200000)
    (hent : ∀ i < n, EntryOk role' s' o (pa + i * 4096 + perm))
    (hV : ∀ v, V' v → v < 512
      ∧ if va / 4096 ≤ v ∧ v < va / 4096 + n then
          pa + (v - va / 4096) * 4096 + perm = v * 4096 + 3
        else V v)
    (hD : ∀ v, D v → D' v)
    (hD' : ∀ v, va / 4096 ≤ v → v < va / 4096 + n → D' v) :
    Loading E V' role' used s' o root D' := by
  have hreg := region_low hva
  refine ⟨hinv, h.space.work h.inv hw fun va' => ?_, fun v hv => ?_,
    fun va' h0 => ?_, fun va' hne => ?_, fun va' hne => ?_⟩
  · rw [hm.entry va']
    by_cases hin : va / 4096 ≤ vpn va' ∧ vpn va' < va / 4096 + n
    · rw [if_pos hin]
      exact .inr (hent _ (by omega))
    · exact .inl (if_neg hin)
  · obtain ⟨hlt, hv⟩ := hV v hv
    rw [hm.entry, vpn_page (by omega)]
    by_cases hin : va / 4096 ≤ v ∧ v < va / 4096 + n
    · rw [if_pos hin] at hv ⊢
      exact hv
    · rw [if_neg hin] at hv ⊢
      exact h.kernel v hv
  · rcases ht : leafTable s.mem root va' with - | t
    · exact absurd ht (h.low va' h0)
    · rw [hm.keep va' t ht]
      exact Option.some_ne_none t
  · rw [hm.table va' (by rw [hreg]; exact hne)]
    exact h.high va' hne
  · rw [hm.entry va'] at hne
    by_cases hin : va / 4096 ≤ vpn va' ∧ vpn va' < va / 4096 + n
    · exact hD' _ hin.1 hin.2
    · rw [if_neg hin] at hne
      exact hD _ (h.dom va' hne)

/-- The same for one page, with the call that maps it: the table is
there, so it takes no page and does not fail. -/
theorem Loading.map_page (V' D' : Nat → Prop)
    (va pa perm : Nat) (h : Loading E V role used s o root D) (hcur : s.cur.pid = o)
    (ho : 1 ≤ o) (hva : va % 4096 = 0) (hlow : va < 0x200000)
    (hpa : pa % 4096 = 0) (hpa' : pa + 4096 ≤ 0x200000) (hperm : perm < 8)
    (hodd : perm % 2 = 1)
    (huser : perm / 4 % 2 = 1 → pa / 4096 = 0xB8 ∨ OwnPage role s o (pa / 4096))
    (hV : ∀ v, V' v → v < 512
      ∧ if v = va / 4096 then pa + perm = v * 4096 + 3 else V v)
    (hD : ∀ v, D v → D' v) (hD' : D' (va / 4096)) :
    ∃ s' role', virtualMemoryMap (root * 4096) va pa 4096 perm
          (some pagetableAlloc) s = (.ok 0, s')
      ∧ Built o 0 role s role' s' ∧ Loading E V' role' used s' o root D'
      ∧ Mapped s.mem root va pa 1 perm s'.mem := by
  have hv3 : pageindex va 3 = va / 4096 := (pageindex_low va hlow).2.2.2
  have hthere : missing s.mem root va = 0 := missing_eq_zero.mpr (h.low va (region_low hlow))
  obtain ⟨r, role', s', k, hrun, hb, ⟨hinv, -, -⟩, hcase⟩ := (Tending.mapper ho).map
    ⟨h.inv, hcur, h.space.isRoot⟩ va pa 1 perm
    ⟨hva, by decide, by omega, by omega, hpa, by omega, by omega, hodd⟩
  rw [hthere] at hcase
  rcases hcase with ⟨-, -, -, -, hless⟩ | ⟨rfl, hm, rfl⟩
  · exact absurd hless (Nat.not_lt_zero k)
  · refine ⟨s', role', hrun, hb, h.mapped hb.toWork hinv hm hlow ?_ ?_ hD ?_, hm⟩
    · intro i hi
      obtain rfl : i = 0 := by omega
      refine .inr ⟨by omega, by omega, fun hU => ?_⟩
      have hdiv : (pa + 0 * 4096 + perm) / 4096 = pa / 4096 := by omega
      rw [hdiv]
      exact (huser (by omega)).imp_right fun hown => hown.work hb.toWork (by omega)
    · intro v hv
      obtain ⟨hlt, hv⟩ := hV v hv
      refine ⟨hlt, ?_⟩
      by_cases hveq : v = va / 4096
      · rw [if_pos hveq] at hv
        rw [if_pos (by omega)]
        omega
      · rw [if_neg hveq] at hv
        rw [if_neg (by omega)]
        exact hv
    · intro v h1 h2
      obtain rfl : v = va / 4096 := by omega
      exact hD'

-- ==== the kernel's mappings

/-- The pages `mapKernel` maps. -/
def kernelDom (E : KEnv) (v : Nat) : Prop :=
  (0x40 ≤ v ∧ v ≤ E.endAddr / 4096) ∨ v = 0x9F ∨ v = 0xB8

/-- Without tables and without pages, a mapping fails and changes
neither. -/
theorem Tending.map_stuck (h : Tending E used o root role s) (ho : 1 ≤ o)
    (va pa n perm : Nat) (hin : InRegion va pa n perm) (hnil : freeQueue s = [])
    (hnone : leafTable s.mem root va = none) :
    ∃ s' role', virtualMemoryMap (root * 4096) va pa (n * 4096) perm
          (some pagetableAlloc) s = (.ok (-1), s')
      ∧ Built o 0 role s role' s' ∧ Tending E used o root role' s' ∧ freeQueue s' = []
      ∧ Grown s.mem root va s'.mem ∧ leafTable s'.mem root va = none := by
  obtain ⟨r, role', s', k, hrun, hb, hs', hcase⟩ := (Tending.mapper ho).map h va pa n perm hin
  have henough := hb.enough
  rw [hnil] at henough
  obtain rfl : k = 0 := Nat.le_zero.mp henough
  rcases hcase with ⟨rfl, hnil', hnone', hg, -⟩ | ⟨-, -, hk⟩
  · exact ⟨s', role', hrun, hb, hs', hnil', hg, hnone'⟩
  · exact absurd hnone (missing_eq_zero.mp hk.symm)

/-- The mappings of the kernel in a new table: they are made, or the
pages have run out. -/
theorem MInv.mapKernel_spec (h : MInv E role used s) (hcur : s.cur.pid = o)
    (ho : 1 ≤ o) (hr : role root = some ⟨o, 0, 0⟩)
    (hempty : ∀ va l, 0 < l → reach s.mem root va l = none) :
    ∃ s' role' k, mapKernel E (root * 4096) s = (.ok (), s')
      ∧ Built o k role s role' s'
      ∧ ((k = 3 ∧ Loading E E.KernelPage role' used s' o root (kernelDom E))
        ∨ (k ≤ 3 ∧ MInv E role' used s' ∧ freeQueue s' = []
            ∧ role' root = some ⟨o, 0, 0⟩
            ∧ ∀ va, region va = 0 → leafTable s'.mem root va = none)) := by
  have hend := E.end_le
  have hst := E.pagetables_start
  have hpe := E.pagetables_end
  have hn : (E.endAddr / 4096 + 1) * 4096 - 0x40000
      = (E.endAddr / 4096 + 1 - 64) * 4096 := by omega
  have hnone : ∀ va, leafTable s.mem root va = none := fun va =>
    leafTable_eq_reach.trans (hempty va 3 (by decide))
  have hzero : ∀ va, leafEntry s.mem root va = 0 := fun va => by
    rw [leafEntry, hnone]
  obtain ⟨r, role1, s1, k, hrun, hb, hs1, hcase⟩ := (Tending.mapper ho).map
    ⟨h, hcur, hr⟩ 0x40000 0x40000 (E.endAddr / 4096 + 1 - 64) 3 ⟨by decide, by omega, show 64 + _ ≤ 512 by omega, by omega, by decide,
      by omega, by decide, by decide⟩
  rw [missing_bare (hempty _ 1 (by decide))] at hcase
  unfold mapKernel
  rw [hn, bind_of_ok hrun]
  rcases hcase with ⟨-, hnil, hn1, -, hless⟩ | ⟨-, hm, rfl⟩
  · -- no page left: the other two fail as well
    have hlow : ∀ {m : ByteMap} {va : Nat}, leafTable m root 0x40000 = none →
        va < 0x200000 → leafTable m root va = none := fun hx hva => by
      rw [leafTable_of_region (show region _ = region 0x40000 from
        (region_low hva).trans (by decide)), hx]
    obtain ⟨s2, role2, hrun2, hb2, hs2, hnil2, -, hn2⟩ := hs1.map_stuck ho
      0x9F000 0x9F000 1 3 (by decide) hnil (hlow hn1 (by decide))
    obtain ⟨s3, role3, hrun3, hb3, ⟨hinv3, -, hr3⟩, hnil3, -, hn3⟩ := hs2.map_stuck ho
      0xB8000 0xB8000 1 7 (by decide) hnil2 (by
        rw [leafTable_of_region (show region 0xB8000 = region 0x9F000 by decide), hn2])
    refine ⟨s3, role3, k, ?_, (hb.trans hb2).trans hb3,
      .inr ⟨Nat.le_of_lt hless, hinv3, hnil3, hr3, fun va hva => ?_⟩⟩
    · rw [bind_of_ok hrun2, bind_of_ok hrun3]
      rfl
    · rw [leafTable_of_region (show region va = region 0xB8000 from
        hva.trans (by decide)), hn3]
  · have hload1 : Loading E (fun v => 0x40 ≤ v ∧ v ≤ E.endAddr / 4096) role1
        used s1 o root (kernelDom E) := by
      refine ⟨hs1.inv, ⟨hs1.isRoot, fun va => ?_⟩, fun v hv => ?_, fun va hva => ?_,
        fun va hva => ?_, fun va hva => ?_⟩
      · rw [hm.entry va]
        by_cases hin : 0x40000 / 4096 ≤ vpn va
            ∧ vpn va < 0x40000 / 4096 + (E.endAddr / 4096 + 1 - 64)
        · rw [if_pos hin]
          exact .inr ⟨by omega, by omega, fun hU => by omega⟩
        · rw [if_neg hin]
          exact .inl (hzero va)
      · rw [hm.entry, vpn_page (by omega), if_pos (by omega)]
        omega
      · rw [leafTable_of_region (show region va = region 0x40000 from
          hva.trans (by decide))]
        exact hm.here
      · rw [hm.table va (fun hx => hva (hx.trans (by decide)))]
        exact hnone va
      · rw [hm.entry va] at hva
        by_cases hin : 0x40000 / 4096 ≤ vpn va
            ∧ vpn va < 0x40000 / 4096 + (E.endAddr / 4096 + 1 - 64)
        · exact .inl (by omega)
        · rw [if_neg hin] at hva
          exact absurd (hzero va) hva
    obtain ⟨s2, role2, hrun2, hb2, hload2, -⟩ := hload1.map_page
      E.KernelPage (kernelDom E) 0x9F000 0x9F000 3 hs1.cur ho (by decide) (by decide) (by decide) (by decide) (by decide)
      (by decide) (fun hU => absurd hU (by decide)) (fun v hv => by
        refine ⟨by have := E.kernelPage_lt hv; omega, ?_⟩
        by_cases hv9 : v = 0x9F000 / 4096
        · rw [if_pos hv9]
          omega
        · rw [if_neg hv9]
          rcases hv with hv | hv
          · omega
          · omega)
      (fun _ hv => hv) (.inr (.inl rfl))
    obtain ⟨s3, role3, hrun3, hb3, hload3, -⟩ := hload2.map_page
      E.KernelPage (kernelDom E) 0xB8000 0xB8000 7 (by rw [hb2.cur, hs1.cur]) ho
      (by decide) (by decide)
      (by decide) (by decide) (by decide) (by decide) (fun _ => .inl rfl) (fun v hv => by
        have hlt := E.kernelPage_lt hv
        rw [if_neg (by omega)]
        exact ⟨by omega, hv⟩)
      (fun _ hv => hv) (.inr (.inr rfl))
    refine ⟨s3, role3, 3, ?_, (hb.trans hb2).trans hb3, .inl ⟨rfl, hload3⟩⟩
    rw [bind_of_ok hrun2, bind_of_ok hrun3]
    rfl

-- ==== loading

/-- Work that changes no translation. -/
theorem Loading.same (h : Loading E V role used s o root D)
    (hw : Work o k role s role' s') (hinv : MInv E role' used s')
    (hsame : ∀ va, leafEntry s'.mem root va = leafEntry s.mem root va
      ∧ leafTable s'.mem root va = leafTable s.mem root va) :
    Loading E V role' used s' o root D := by
  refine ⟨hinv, h.space.work h.inv hw fun va => .inl (hsame va).1,
    fun v hv => ?_, fun va hva => ?_, fun va hva => ?_, fun va hva => ?_⟩
  · rw [(hsame _).1, h.kernel v hv]
  · rw [(hsame va).2]
    exact h.low va hva
  · rw [(hsame va).2]
    exact h.high va hva
  · rw [(hsame va).1] at hva
    exact h.dom va hva

theorem UserMap.same (h : UserMap role s o root v) (h0 : o ≠ 0)
    (hw : Work o k role s role' s')
    (hsame : leafEntry s'.mem root (v * 4096) = leafEntry s.mem root (v * 4096)) :
    UserMap role' s' o root v := by
  obtain ⟨pn, he, hown⟩ := h
  exact ⟨pn, hsame.trans he, hown.work hw h0⟩

/-- A page of the process is mapped at `va`. -/
theorem UserMap.mapped (h0 : o ≠ 0) (hv : v < 2 ^ 36)
    (hw : Work o k role s role' s') (hm : Mapped s.mem root va (pn * 4096) 1 7 s'.mem)
    (hpn : OwnPage role s o pn) (h : v = va / 4096 ∨ UserMap role s o root v) :
    UserMap role' s' o root v := by
  have hent := hm.entry (v * 4096)
  rw [vpn_page hv] at hent
  by_cases hva : v = va / 4096
  · have hoff : v - va / 4096 = 0 := by omega
    rw [if_pos (by omega), hoff, Nat.zero_mul, Nat.add_zero] at hent
    exact ⟨pn, hent, hpn.work hw h0⟩
  · rw [if_neg (by omega)] at hent
    exact (h.resolve_left hva).same h0 hw hent

/-- What a part of the loader does: the pages in `C` are mapped for the
process, which takes `n` pages, or there are not so many left. -/
def Loads (E : KEnv) (used : List Blk) (o : Int) (root : Nat) (D : Nat → Prop) (n : Nat)
    (C : Nat → Prop) (x : KM Int) (role : Roles) (s : KState) : Prop :=
  ∃ r s' role' k, x s = (.ok r, s') ∧ Built o k role s role' s'
    ∧ Loading E E.KernelPage role' used s' o root D
    ∧ (∀ v, v < 512 → UserMap role s o root v → UserMap role' s' o root v)
    ∧ ((r = -1 ∧ freeQueue s' = [] ∧ k < n)
      ∨ (r = 0 ∧ k = n ∧ ∀ v, C v → UserMap role' s' o root v))

/-- The pages of a segment: all of them, or no page is left. -/
theorem loadPages_spec (ho : 1 ≤ o) : ∀ n addr s role,
    Loading E E.KernelPage role used s o root D → s.cur.pid = o →
    addr % 4096 = 0 → 0x100000 ≤ addr → addr + n * 4096 ≤ 0x200000 →
    (∀ v, addr / 4096 ≤ v ∧ v < addr / 4096 + n → D v) →
    Loads E used o root D n (fun v => addr / 4096 ≤ v ∧ v < addr / 4096 + n)
      (loadPages o (root * 4096) n addr) role s := by
  intro n
  induction n with
  | zero =>
    intro addr s role h _ _ _ _ _
    refine ⟨0, s, role, 0, rfl, Built.refl, h, fun _ _ hv => hv,
      .inr ⟨rfl, rfl, fun v hv => ?_⟩⟩
    omega
  | succ n ih =>
    intro addr s role h hcur hal hlo hhi hD
    rcases h.inv.page_alloc (o := o) (by omega) with ⟨hnil, heq⟩
      | ⟨c, rest, s1, -, hc0, hc512, hcr, heq, hb1, hinv1, hinfo, -, hframe⟩
    · refine ⟨-1, s, role, 0, ?_, Built.refl, h, fun _ _ hv => hv,
        .inl ⟨rfl, hnil, Nat.succ_pos n⟩⟩
      rw [loadPages, bind_of_ok heq]
      rfl
    have hsame := fun va => And.intro
      (h.inv.leafEntry_frame h.space.isRoot hframe (fun hf => hf) va)
      (h.inv.leafTable_frame h.space.isRoot hframe (fun hf => hf) va)
    have hload1 := h.same hb1.toWork hinv1 hsame
    have hown : OwnPage role s1 o c := ⟨by rw [hinfo], hcr⟩
    have hdivc : c * 4096 / 4096 = c := Nat.mul_div_cancel _ (by decide)
    obtain ⟨s2, role2, hrun2, hb2, hload2, hm⟩ := hload1.map_page E.KernelPage D
      addr (c * 4096) 7 (by rw [hb1.cur, hcur]) ho hal (by omega) (by omega)
      (by omega) (by decide) (by decide) (fun _ => .inr (hdivc.symm ▸ hown))
      (fun v hv => by
        have hlt := E.kernelPage_lt hv
        rw [if_neg (by omega)]
        exact ⟨by omega, hv⟩)
      (fun _ hv => hv) (hD _ ⟨Nat.le_refl _, by omega⟩)
    obtain ⟨r, s', role', k, hrun, hb, hload, hkeep, hcase⟩ := ih (addr + 4096)
      s2 role2 hload2 (by rw [hb2.cur, hb1.cur, hcur]) (by omega) (by omega)
      (by omega) (fun v hv => hD v (by omega))
    have hkeep2 : ∀ v < 512, (v = addr / 4096 ∨ UserMap role s o root v) →
        UserMap role' s' o root v := fun v hv hx =>
      hkeep v hv (UserMap.mapped (by omega) (by omega) hb2.toWork hm hown
        (hx.imp_right fun hu => hu.same (by omega) hb1.toWork (hsame _).1))
    refine ⟨r, s', role', 1 + 0 + k, ?_, (hb1.trans hb2).trans hb, hload,
      fun v hv hu => hkeep2 v hv (.inr hu), ?_⟩
    · rw [loadPages, bind_of_ok heq, if_neg (by omega),
        bind_of_ok hrun2, if_neg (by decide)]
      exact hrun
    · rcases hcase with ⟨hr, hnil, hless⟩ | ⟨rfl, rfl, huser⟩
      · exact .inl ⟨hr, hnil, by omega⟩
      · refine .inr ⟨rfl, by omega, fun v hv => ?_⟩
        by_cases hva : v = addr / 4096
        · exact hkeep2 v (by omega) (.inl hva)
        · exact huser v (by omega)

/-- The copy through the process's table stays in the process's pages. -/
theorem fillPages_spec (ho : 1 ≤ o) (bytes : ByteMap) (endMem : Nat) :
    ∀ n addr s, Loading E E.KernelPage role used s o root D →
    addr % 4096 = 0 → addr + n * 4096 ≤ 0x200000 →
    (∀ v, addr / 4096 ≤ v ∧ v < addr / 4096 + n → UserMap role s o root v) →
    ∃ s', fillPages (root * 4096) bytes endMem n addr s = (.ok (), s')
      ∧ Built o 0 role s role s'
      ∧ Loading E E.KernelPage role used s' o root D
      ∧ ∀ v, UserMap role s o root v → UserMap role s' o root v := by
  intro n
  induction n with
  | zero =>
    intro addr s h _ _ _
    exact ⟨s, rfl, Built.refl, h, fun _ hv => hv⟩
  | succ n ih =>
    intro addr s h hal hhi huser
    obtain ⟨pn, he, hown⟩ := huser (addr / 4096) ⟨Nat.le_refl _, by omega⟩
    have haddr : addr / 4096 * 4096 = addr := by omega
    rw [haddr] at he
    have hlt : pn < 512 := by
      have hent := h.space.entry addr
      rw [he] at hent
      rcases hent with h0 | ⟨-, hlt, -⟩
      · omega
      · omega
    have hlook : virtualMemoryLookup s.mem (root * 4096) addr
        = ⟨(pn : Nat), pn * 4096, 7⟩ := by
      have h2 : leafEntry s.mem root addr % 2 = 1 := by omega
      rw [h.inv.tables.lookup_some h.space.isRoot h2 (by omega), he]
      have h3 : (pn * 4096 + 7) / 4096 = pn := by omega
      have h4 : (pn * 4096 + 7) % 4096 = 7 := by omega
      rw [h3, h4, hal, Nat.add_zero]
    have hwrite : ∀ x, copy s.mem (pn * 4096) bytes addr
          (min 4096 (endMem - addr)) x ≠ s.mem x →
        (s.pageinfo (x / 4096)).owner = o ∧ role (x / 4096) = none := by
      intro x hx
      have hin : pn * 4096 ≤ x ∧ x < pn * 4096 + min 4096 (endMem - addr) := by
        by_contra hn
        exact hx (copy_of_not_mem hn)
      have hxp : x / 4096 = pn := by omega
      rw [hxp]
      exact hown
    obtain ⟨hb1, hinv1⟩ := h.inv.write ho hwrite
    have hsame := fun va => h.inv.tables.leafEntry_write h.space.isRoot
      (fun x hx => (hwrite x hx).2) va
    have hload1 := h.same hb1.toWork hinv1 hsame
    have hkeep1 := fun v (hv : UserMap role s o root v) =>
      hv.same (by omega) hb1.toWork (hsame _).1
    obtain ⟨s', hrun, hb, hload, hkeep⟩ := ih (addr + 4096) _ hload1 (by omega)
      (by omega) (fun v hv => hkeep1 v (huser v (by omega)))
    refine ⟨s', ?_, hb1.trans hb, hload, fun v hv => hkeep v (hkeep1 v hv)⟩
    have hfail : Prog.failIf ((pn : Int) = -1) .panic s = (.ok (), s) := by
      unfold Prog.failIf
      rw [if_neg (by omega)]
      rfl
    rw [fillPages, get_bind, hlook]
    rw [bind_of_ok hfail, bind_of_ok (x := Prog.modify _) rfl]
    exact hrun

/-- The pages of a segment. -/
def Segment.pages (g : Segment) : Nat :=
  (g.va + g.memsz - g.va / 4096 * 4096 + 4095) / 4096

/-- The page belongs to the segment. -/
def Segment.Covers (g : Segment) (v : Nat) : Prop :=
  g.va / 4096 ≤ v ∧ v < g.va / 4096 + g.pages

theorem Segment.pages_le (g : Segment) :
    0x100 ≤ g.va / 4096 ∧ g.va / 4096 + g.pages ≤ 0x200 := by
  have h1 := g.start_le
  have h2 := g.end_le
  unfold Segment.pages
  omega

theorem programLoadSegment_spec (ho : 1 ≤ o) (g : Segment)
    (h : Loading E E.KernelPage role used s o root D) (hcur : s.cur.pid = o)
    (hpt : (s.processes o).pagetable = root * 4096) (hD : ∀ v, g.Covers v → D v) :
    Loads E used o root D g.pages g.Covers (programLoadSegment E o g) role s := by
  obtain ⟨hlo, hhi⟩ := g.pages_le
  have hdiv : g.va / 4096 * 4096 / 4096 = g.va / 4096 :=
    Nat.mul_div_cancel _ (by decide)
  obtain ⟨r, s1, role1, k, hrun, hb, hload, hkeep, hcase⟩ := loadPages_spec ho
    g.pages (g.va / 4096 * 4096) s role h hcur (Nat.mul_mod_left _ _) (by omega)
    (by omega) (by rw [hdiv]; exact hD)
  rw [hdiv] at hcase
  unfold Loads programLoadSegment
  rw [get_bind, hpt]
  unfold Segment.pages at hrun
  rw [bind_of_ok hrun]
  rcases hcase with ⟨rfl, hfail⟩ | ⟨rfl, rfl, huser⟩
  · exact ⟨-1, s1, role1, k, rfl, hb, hload, hkeep, .inl ⟨rfl, hfail⟩⟩
  obtain ⟨s2, hfill, hb2, hload2, hkeep2⟩ := fillPages_spec ho
    (fun a => if a < g.va + g.filesz then g.data (a - g.va / 4096 * 4096) else 0)
    (g.va + g.memsz) g.pages (g.va / 4096 * 4096) s1 hload
    (Nat.mul_mod_left _ _) (by omega) (by rw [hdiv]; exact huser)
  refine ⟨0, s2, role1, g.pages, ?_, hb.trans hb2, hload2,
    fun v hv hu => hkeep2 v (hkeep v hv hu),
    .inr ⟨rfl, rfl, fun v hv => hkeep2 v (huser v hv)⟩⟩
  unfold Segment.pages at hfill
  rw [if_neg (by decide), bind_of_ok
    (hload.inv.setPagetable_kmap hload.space.isRoot hload.kernel),
    bind_of_ok hfill, bind_of_ok hload2.inv.setPagetable_kernel]
  rfl

/-- The pages of the segments that are loaded. -/
def loadSize : List Segment → Nat
  | [] => 0
  | g :: gs => (if g.load then g.pages else 0) + loadSize gs

/-- The page is one of the segments that are loaded. -/
def InSegments (gs : List Segment) (v : Nat) : Prop :=
  ∃ g ∈ gs, g.load = true ∧ g.Covers v

theorem loadSegments_spec (ho : 1 ≤ o) : ∀ gs s role,
    Loading E E.KernelPage role used s o root D → s.cur.pid = o →
    (s.processes o).pagetable = root * 4096 → (∀ v, InSegments gs v → D v) →
    Loads E used o root D (loadSize gs) (InSegments gs) (loadSegments E o gs) role s := by
  intro gs
  induction gs with
  | nil =>
    intro s role h _ _ _
    exact ⟨0, s, role, 0, rfl, Built.refl, h, fun _ _ hv => hv,
      .inr ⟨rfl, rfl, fun v ⟨g, hg, _⟩ => absurd hg List.not_mem_nil⟩⟩
  | cons g gs ih =>
    intro s role h hcur hpt hD
    have hD' : ∀ v, InSegments gs v → D v := fun v ⟨g', hg', hv⟩ =>
      hD v ⟨g', List.mem_cons_of_mem g hg', hv⟩
    by_cases hload : g.load = true
    · obtain ⟨r1, s1, role1, k1, hrun1, hb1, hload1, hkeep1, hcase1⟩ :=
        programLoadSegment_spec ho g h hcur hpt
          fun v hv => hD v ⟨g, List.mem_cons_self, hload, hv⟩
      have hsize : loadSize (g :: gs) = g.pages + loadSize gs := by
        rw [loadSize, if_pos hload]
      unfold Loads
      rw [loadSegments, if_pos hload, bind_of_ok hrun1, hsize]
      rcases hcase1 with ⟨rfl, hnil, hless⟩ | ⟨rfl, rfl, huser⟩
      · exact ⟨-1, s1, role1, k1, rfl, hb1, hload1, hkeep1, .inl ⟨rfl, hnil, by omega⟩⟩
      rw [if_neg (by decide)]
      obtain ⟨r, s', role', k, hrun, hb, hload', hkeep, hcase⟩ := ih s1 role1
        hload1 (by rw [hb1.cur, hcur]) (by rw [hb1.processes, hpt]) hD'
      refine ⟨r, s', role', g.pages + k, hrun, hb1.trans hb, hload',
        fun v hv hu => hkeep v hv (hkeep1 v hv hu), ?_⟩
      rcases hcase with ⟨hr, hnil, hless⟩ | ⟨rfl, rfl, husers⟩
      · exact .inl ⟨hr, hnil, by omega⟩
      · refine .inr ⟨rfl, rfl, fun v ⟨g', hg', hl, hv⟩ => ?_⟩
        rcases List.mem_cons.mp hg' with rfl | hg'
        · have hle := g'.pages_le
          exact hkeep v (by have := hv.2; omega) (huser v hv)
        · exact husers v ⟨g', hg', hl, hv⟩
    · obtain ⟨r, s', role', k, hrun, hb, hload', hkeep, hcase⟩ := ih s role h hcur hpt hD'
      have hsize : loadSize (g :: gs) = loadSize gs := by
        rw [loadSize, if_neg hload, Nat.zero_add]
      rw [loadSegments, if_neg hload, hsize]
      refine ⟨r, s', role', k, hrun, hb, hload', hkeep, ?_⟩
      rcases hcase with hfail | ⟨hr0, hk0, husers⟩
      · exact .inl hfail
      · refine .inr ⟨hr0, hk0, fun v ⟨g', hg', hl, hv⟩ => ?_⟩
        rcases List.mem_cons.mp hg' with rfl | hg'
        · exact absurd hl hload
        · exact husers v ⟨g', hg', hl, hv⟩

/-- Without the kernel's mappings and without pages the loader does not
succeed. -/
theorem loadSegments_stuck (h : MInv E role used s)
    (hr : role root = some ⟨o, 0, 0⟩) (ho : 1 ≤ o) (hnil : freeQueue s = [])
    (hnone : ∀ va, region va = 0 → leafTable s.mem root va = none)
    (hpt : (s.processes o).pagetable = root * 4096) :
    ∀ gs, (∃ g ∈ gs, g.load = true ∧ 0 < g.memsz) →
      ∀ r s', loadSegments E o gs s = (.ok r, s') → r = -1 := by
  intro gs
  induction gs with
  | nil =>
    rintro ⟨g, hg, -⟩
    cases hg
  | cons g gs ih =>
    intro hex r s' hrun
    by_cases hload : g.load = true
    swap
    · rw [loadSegments, if_neg hload] at hrun
      refine ih ?_ r s' hrun
      obtain ⟨g', hg', hl, hm⟩ := hex
      rcases List.mem_cons.mp hg' with rfl | hg'
      · exact absurd hl hload
      · exact ⟨g', hg', hl, hm⟩
    rw [loadSegments, if_pos hload] at hrun
    obtain ⟨r1, s1, hrun1, hrest⟩ := bind_ok.mp hrun
    rw [programLoadSegment, get_bind, hpt] at hrun1
    rcases hn : (g.va + g.memsz - g.va / 4096 * 4096 + 4095) / 4096 with - | n
    · -- nothing to load, but the table is not accepted
      rw [hn] at hrun1
      have hend := E.end_le
      have hmem := E.handler_mem
      have hlook : (virtualMemoryLookup s.mem (root * 4096)
          E.defaultIntHandler).pa ≠ E.defaultIntHandler := by
        rw [h.tables.lookup_none hr (by
          rw [leafEntry, hnone _ (region_low (by omega))]
          exact (by decide : ¬ (0 % 2 = 1)))]
        dsimp only
        omega
      have hset : setPagetable E (root * 4096) s = (.error .panic, s) := by
        unfold setPagetable
        rw [assert_bind (Nat.mul_mod_left _ _), get_bind,
          bind_of_error (assert_of_not hlook)]
      rw [bind_of_ok (show loadPages o (root * 4096) 0 _ s = (.ok 0, s)
        from rfl), if_neg (by decide), bind_of_error hset] at hrun1
      cases hrun1
    · have hfail : pageAlloc o s = (.ok 0, s) := by
        rcases pageAlloc_eq h.cursor (show o ≠ 0 by omega) with hx | ⟨_, _, hx, -⟩
        · exact hx.2
        · rw [hnil] at hx
          cases hx
      have hpages : loadPages o (root * 4096) (n + 1) (g.va / 4096 * 4096) s
          = (.ok (-1), s) := by
        rw [loadPages, bind_of_ok hfail]
        rfl
      rw [hn, bind_of_ok hpages, if_pos (by decide)] at hrun1
      cases hrun1
      rw [if_pos (by decide)] at hrest
      cases hrest
      rfl

end RojocOS.Kernel
