/-
The address space of a process.

`Space` says what a process can get at through its page table: an entry
with `PTE_U` leads to the console or to a page of the process that is not
a page table. `KMap V` says that the pages in `V` are mapped to
themselves for the kernel only. The two are kept apart because work for
the process itself keeps the first in any case, and the second only as
long as pages last.

What other owners do leaves both (`Space.frame`, `KMap.frame`).
-/
import RojocOS.Kernel.Proofs.Build

namespace RojocOS.Kernel

open ByteMap Prog

variable {E : KEnv} {o : Int} {role : Roles} {root a e pn v : Nat} {s : KState}
  {used : List Blk} {V : Nat → Prop} {m m' : ByteMap}

/-- A page of `o` that is not one of its tables. -/
def OwnPage (role : Roles) (s : KState) (o : Int) (pn : Nat) : Prop :=
  (s.pageinfo pn).owner = o ∧ role pn = none

/-- A last-level entry that process `o` may have. -/
def EntryOk (role : Roles) (s : KState) (o : Int) (e : Nat) : Prop :=
  e = 0 ∨ (e % 2 = 1 ∧ e < 0x200000
    ∧ (e / 4 % 2 = 1 → e / 4096 = 0xB8 ∨ OwnPage role s o (e / 4096)))

/-- `root` is the page table of `o`, and its entries are in order. -/
structure Space (role : Roles) (s : KState) (o : Int) (root : Nat) : Prop where
  isRoot : role root = some ⟨o, 0, 0⟩
  entry : ∀ va, EntryOk role s o (leafEntry s.mem root va)

/-- The pages in `V` are mapped to themselves, with `P|W`. -/
def KMap (V : Nat → Prop) (m : ByteMap) (root : Nat) : Prop :=
  ∀ v, V v → leafEntry m root (v * 4096) = v * 4096 + 3

/-- The page is mapped to itself. -/
def IdMap (m : ByteMap) (root v : Nat) : Prop :=
  ∃ f, leafEntry m root (v * 4096) = v * 4096 + f ∧ f % 2 = 1 ∧ f < 4096

-- ==== translations

section Lookup

variable {m : ByteMap} {va : Nat}

section

variable (ht : Tables m role) (hr : role root = some ⟨o, 0, 0⟩)

include ht hr

theorem Tables.lookup_none (h : leafEntry m root va % 2 ≠ 1) :
    virtualMemoryLookup m (root * 4096) va = ⟨-1, 2 ^ 64 - 1, 0⟩ := by
  rw [ht.virtualMemoryLookup_eq hr, if_neg h]

theorem Tables.lookup_some (h : leafEntry m root va % 2 = 1)
    (hlt : leafEntry m root va < 0x200000) :
    virtualMemoryLookup m (root * 4096) va
      = ⟨(leafEntry m root va / 4096 : Nat),
          leafEntry m root va / 4096 * 4096 + va % 4096, leafEntry m root va % 4096⟩ := by
  have hi : i32 (leafEntry m root va / 4096)
      = (leafEntry m root va / 4096 : Nat) := by
    have hu : u32 (leafEntry m root va / 4096) = leafEntry m root va / 4096 :=
      Nat.mod_eq_of_lt (by omega)
    unfold i32
    rw [hu, if_pos (by omega)]
  rw [ht.virtualMemoryLookup_eq hr, if_pos h, hi]
  rfl

/-- On a page mapped to itself, addresses are physical ones. -/
theorem Tables.lookup_id (hlt : va < 0x200000) (h : IdMap m root (va / 4096)) :
    (virtualMemoryLookup m (root * 4096) va).pa = va := by
  obtain ⟨f, he, hodd, hf⟩ := h
  have hv : vpn va = vpn (va / 4096 * 4096) := by
    rw [vpn_of_lt (by omega), vpn_page (by omega)]
  rw [← leafEntry_of_vpn hv] at he
  have h2 : leafEntry m root va % 2 = 1 := by omega
  rw [ht.lookup_some hr h2 (by omega), he]
  dsimp only
  omega

end

theorem KMap.idMap (h : KMap V m root) (hv : V v) : IdMap m root v :=
  ⟨3, h v hv, rfl, by decide⟩

end Lookup

-- ==== preservation

section Keep

variable {S : Int → Prop} {role' : Roles} {s' : KState} {k : Nat} {V : Nat → Prop}

theorem OwnPage.frame (h : OwnPage role s o pn)
    (hf : Frame S role s role' s') (h0 : o ≠ 0) (hS : ¬ S o) : OwnPage role' s' o pn := by
  obtain ⟨rfl, hr⟩ := h
  obtain ⟨hp, hr', -⟩ := hf pn h0 hS
  exact ⟨by rw [hp], hr'.trans hr⟩

theorem OwnPage.work (h : OwnPage role s o pn)
    (hw : Work o k role s role' s') (h0 : o ≠ 0) : OwnPage role' s' o pn := by
  have hn : pn ∉ freeQueue s := fun hin => by
    have := (mem_freeQueue.mp hin).2
    exact h0 (h.1.symm.trans this)
  exact ⟨by rw [hw.info hn, h.1], (hw.role pn hn).trans h.2⟩

theorem EntryOk.mono (h : EntryOk role s o e)
    (hown : ∀ pn, OwnPage role s o pn → OwnPage role' s' o pn) : EntryOk role' s' o e :=
  h.imp_right fun ⟨h1, h2, h3⟩ => ⟨h1, h2, fun hU => (h3 hU).imp_right (hown _)⟩

section

variable (h : MInv E role used s) (hr : role root = some ⟨o, 0, 0⟩)
  (hf : Frame S role s role' s') (hS : ¬ S o) (va : Nat)

include h hr hf hS va

/-- The tree of an owner outside `S`. -/
theorem MInv.leafTable_frame : leafTable s'.mem root va = leafTable s.mem root va := by
  refine h.tables.leafTable_congr hr fun pn l pre hp _ => ?_
  obtain ⟨hp1, hp2⟩ := h.own pn _ hp
  exact (hf.page hp1 hp2 hS).2.2

theorem MInv.leafEntry_frame : leafEntry s'.mem root va = leafEntry s.mem root va := by
  refine h.tables.leafEntry_congr hr fun pn l pre hp => ?_
  obtain ⟨hp1, hp2⟩ := h.own pn _ hp
  exact (hf.page hp1 hp2 hS).2.2

end

theorem Space.frame (hs : Space role s o root) (h : MInv E role used s)
    (hf : Frame S role s role' s') (hS : ¬ S o) : Space role' s' o root := by
  obtain ⟨hp1, hp2⟩ := h.own root _ hs.isRoot
  refine ⟨(hf.page hp1 hp2 hS).2.1.trans hs.isRoot, fun va => ?_⟩
  rw [h.leafEntry_frame hs.isRoot hf hS]
  exact (hs.entry va).mono fun pn hpn => hpn.frame hf hp2 hS

theorem KMap.frame (hk : KMap V s.mem root) (h : MInv E role used s)
    (hr : role root = some ⟨o, 0, 0⟩) (hf : Frame S role s role' s')
    (hS : ¬ S o) : KMap V s'.mem root := fun v hv => by
  rw [h.leafEntry_frame hr hf hS, hk v hv]

/-- Work for the process: the entries it changes have to be in order. -/
theorem Space.work (hs : Space role s o root) (h : MInv E role used s)
    (hw : Work o k role s role' s')
    (hent : ∀ va, leafEntry s'.mem root va = leafEntry s.mem root va
      ∨ EntryOk role' s' o (leafEntry s'.mem root va)) :
    Space role' s' o root := by
  have h0 : o ≠ 0 := (h.own root _ hs.isRoot).2
  refine ⟨hw.role_some h hs.isRoot, fun va => ?_⟩
  rcases hent va with heq | hok
  · rw [heq]
    exact (hs.entry va).mono fun pn hpn => hpn.work hw h0
  · exact hok

/-- Writes to pages that are not tables change no translation. -/
theorem Tables.leafEntry_write (ht : Tables m role) (hr : role root = some ⟨o, 0, 0⟩)
    (hm : ∀ x, m' x ≠ m x → role (x / 4096) = none) (va : Nat) :
    leafEntry m' root va = leafEntry m root va
      ∧ leafTable m' root va = leafTable m root va := by
  have hsame : ∀ pn l pre, role pn = some ⟨o, l, pre⟩ → ∀ x, pn * 4096 ≤ x →
      x < pn * 4096 + 4096 → m' x = m x := by
    intro pn l pre hp x h1 h2
    by_contra hne
    have hx : x / 4096 = pn := by omega
    have := hm x hne
    rw [hx, hp] at this
    cases this
  exact ⟨ht.leafEntry_congr hr hsame,
    ht.leafTable_congr hr fun pn l pre hp _ => hsame pn l pre hp⟩

end Keep

-- ==== set_pagetable

theorem MInv.ktab_id (h : MInv E role used s) (hpn : pn < 512) :
    IdMap s.mem E.ktab pn := by
  obtain ⟨f, he, hodd, hf, -⟩ := h.identity pn hpn
  exact ⟨f, he, hodd, by omega⟩

/-- It accepts a table that maps the kernel's code and tables to
themselves. -/
theorem MInv.setPagetable_ok (h : MInv E role used s) (hr : role root = some ⟨o, 0, 0⟩)
    (h1 : IdMap s.mem root (E.defaultIntHandler / 4096)) (h2 : IdMap s.mem root E.ktab)
    (h3 : IdMap s.mem root (E.virtualMemoryMapAddr / 4096)) :
    setPagetable E (root * 4096) s = (.ok (), s) := by
  have hend := E.end_le
  have hhan := E.handler_mem
  have hmap := E.map_mem
  obtain ⟨hk1, hk2⟩ := E.ktab_bounds
  have hroot := h.tables.low root _ hr
  have hdiv : root * 4096 / 4096 = root := Nat.mul_div_cancel _ (by decide)
  unfold setPagetable
  rw [assert_bind (Nat.mul_mod_left _ _), get_bind,
    assert_bind (h.tables.lookup_id hr (by omega) h1), E.kernelPagetables_eq,
    assert_bind (h.tables.lookup_id h.kernel.root (by omega)
      (hdiv.symm ▸ h.ktab_id hroot)),
    assert_bind (h.tables.lookup_id hr (by omega) ?_),
    assert_of (h.tables.lookup_id hr (by omega) h3)]
  rw [Nat.mul_div_cancel _ (by decide)]
  exact h2

theorem KEnv.kernelPage_of_mem (E : KEnv)
    (h : 0x40000 ≤ a ∧ a < E.endAddr) : E.KernelPage (a / 4096) :=
  .inl (by omega)

theorem KEnv.kernelPage_ktab (E : KEnv) : E.KernelPage E.ktab := by
  have h1 := E.ktab_bounds
  have h2 := E.kernelPagetables_eq
  have h3 := E.pagetables_end
  exact .inl (by omega)

theorem KEnv.kernelPage_lt (E : KEnv) (h : E.KernelPage v) : 0x40 ≤ v ∧ v < 0xA0 := by
  have := E.end_le
  rcases h with h | h
  · omega
  · omega

theorem bootOwner_kernel (h : E.KernelPage pn) : bootOwner E pn = -2 := by
  have hlt := E.kernelPage_lt h
  have hres : physicalMemoryIsreserved (pn * 4096) = false := by
    unfold physicalMemoryIsreserved
    simp only [Bool.or_eq_false_iff, beq_eq_false_iff_ne, Bool.and_eq_false_iff,
      decide_eq_false_iff_not]
    omega
  unfold bootOwner
  rw [hres, if_neg (by decide), if_pos h]
  rfl

/-- A process's table with the kernel in it is accepted. -/
theorem MInv.setPagetable_kmap (h : MInv E role used s)
    (hr : role root = some ⟨o, 0, 0⟩) (hk : KMap E.KernelPage s.mem root) :
    setPagetable E (root * 4096) s = (.ok (), s) :=
  h.setPagetable_ok hr (hk.idMap (E.kernelPage_of_mem E.handler_mem))
    (hk.idMap E.kernelPage_ktab) (hk.idMap (E.kernelPage_of_mem E.map_mem))

/-- So is the kernel's own. -/
theorem MInv.setPagetable_kernel (h : MInv E role used s) :
    setPagetable E E.kernelPagetables s = (.ok (), s) := by
  have hend := E.end_le
  have hhan := E.handler_mem
  have hmap := E.map_mem
  have hk := E.ktab_bounds
  rw [E.kernelPagetables_eq]
  exact h.setPagetable_ok h.kernel.root (h.ktab_id (by omega))
    (h.ktab_id (by omega)) (h.ktab_id (by omega))

end RojocOS.Kernel
