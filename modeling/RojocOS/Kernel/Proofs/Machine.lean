/-
The invariant of the running kernel, and its self-check.

# Strengths

`KInv E G O` is about every state between two exceptions. With `G` it says
that the kernel is mapped, for itself only, in the table of every live
process; without, it is what remains when a process has asked for a page
at an address of the kernel, which `page_alloc` grants. With `O` it says
that a page's owner is a process there is; `sys_forget` of a process that
still has pages ends that. A live process reaches its own pages and the
console in any case.

# The self-check

`check_virtual_memory` looks at the same tables and accounts as `KInv`,
and finds nothing (`KInv.check`).
-/
import RojocOS.Kernel.Proofs.HeapUse
import RojocOS.Kernel.Proofs.Lives

namespace RojocOS.Kernel

open ByteMap Prog

variable {E : KEnv} {G O : Prop} {role role' : Roles} {used used' : List Blk}
  {s s' : KState} {a k n v x : Nat} {b : Blk} {m m' : ByteMap} {o : Int} {p q : Proc}
variable {i : Int} {root : Nat}

/-- A byte that process `i` may have the kernel write. -/
def UserByte (role : Roles) (s : KState) (i : Int) (x : Nat) : Prop :=
  x / 4096 = 0xB8 ∨ OwnPage role s i (x / 4096)

/-- The list of descriptors is empty, or one entry in a block of the
kernel's heap. -/
def FdOk (used : List Blk) (m : ByteMap) (a : Nat) : Prop :=
  a = 0 ∨ ∃ b ∈ used, a = b.h + 16 ∧ 24 ≤ b.size ∧ load m (a + 16) 8 = 0

/-- A live process: its address space, and its place for the exit code of
a child it has waited for. -/
structure ProcOk (E : KEnv) (G : Prop) (role : Roles) (s : KState) (i : Int) (p : Proc) :
    Prop where
  space : ∃ root, p.pagetable = root * 4096 ∧ Space role s i root
    ∧ (G → Fitted E role s i root)
  wait : 1 ≤ p.waitPid → ∀ d, d < 4 → UserByte role s i (p.waitExitCode + d)

/-- The invariant. -/
structure KInv (E : KEnv) (G O : Prop) (role : Roles) (used : List Blk) (s : KState) :
    Prop where
  mach : MInv E role used s
  numbered : Numbered s
  zero : (s.processes 0).state = .free
  live : ∀ i, s.Live i → ProcOk E G role s i (s.processes i)
  /-- No process uses the kernel's own table. -/
  table : ∀ i : Int, 0 ≤ i → i < 16 → (s.processes i).pagetable ≠ E.kernelPagetables
  owner : O → ∀ pn, pn < 512 → 1 ≤ (s.pageinfo pn).owner →
    (s.pageinfo pn).owner < 16 ∧ (s.processes (s.pageinfo pn).owner).state ≠ .free
  fd : ∀ i : Int, 0 ≤ i → i < 16 → FdOk used s.mem (s.processes i).fdList
  console : role 0xB8 = none
  bare : HeapBare role s

-- ==== frames

section Frame

variable {S : Int → Prop}

theorem UserMap.frame (h : UserMap role s i root v) (hinv : MInv E role used s)
    (hr : role root = some ⟨i, 0, 0⟩) (hf : Frame S role s role' s') (hS : ¬ S i) :
    UserMap role' s' i root v := by
  obtain ⟨pn, he, hown⟩ := h
  refine ⟨pn, ?_, hown.frame hf (hinv.own root _ hr).2 hS⟩
  rw [hinv.leafEntry_frame hr hf hS]
  exact he

theorem Fitted.frame (h : Fitted E role s i root) (hinv : MInv E role used s)
    (hf : Frame S role s role' s') (hS : ¬ S i) : Fitted E role' s' i root := by
  refine ⟨h.space.frame hinv hf hS, h.kernel.frame hinv h.space.isRoot hf hS, ?_⟩
  obtain ⟨v, h1, h2, hu⟩ := h.text
  exact ⟨v, h1, h2, hu.frame hinv h.space.isRoot hf hS⟩

theorem UserByte.frame (h : UserByte role s i x) (hf : Frame S role s role' s')
    (h0 : i ≠ 0) (hS : ¬ S i) : UserByte role' s' i x :=
  h.imp_right fun hown => hown.frame hf h0 hS

/-- What others do leaves a process as it is. -/
theorem ProcOk.frame (h : ProcOk E G role s i p) (hinv : MInv E role used s)
    (hf : Frame S role s role' s') (h0 : i ≠ 0) (hS : ¬ S i) (hq : SameRole p q) :
    ProcOk E G role' s' i q := by
  constructor
  · obtain ⟨root, hpt, hsp, hfit⟩ := h.space
    exact ⟨root, hq.pagetable.trans hpt, hsp.frame hinv hf hS,
      fun hG => (hfit hG).frame hinv hf hS⟩
  · intro hw d hd
    rw [hq.waitPid] at hw
    rw [hq.waitExitCode]
    exact (h.wait hw d hd).frame hf h0 hS

theorem FdOk.congr (h : FdOk used m a)
    (hm : ∀ b ∈ used, ∀ x, b.Has x → m' x = m x) : FdOk used m' a := by
  refine h.imp_right fun ⟨b, hb, ha, hsz, hz⟩ => ⟨b, hb, ha, hsz, ?_⟩
  rw [← hz]
  refine load_congr fun x h1 h2 => hm b hb x (Blk.has_iff.mpr ?_)
  omega

/-- The heap's blocks are pages of the kernel. -/
theorem MInv.used_frame (h : MInv E role used s) (hf : Frame S role s role' s')
    (hS : ¬ S (-3)) (hb : b ∈ used) (hx : b.Has x) : s'.mem x = s.mem x := by
  obtain ⟨free, hinv⟩ := h.heap
  obtain ⟨p, hp, h1, h2⟩ := hinv.tiles.mem (List.mem_append_right _ hb) hx
  have hal := hinv.page p hp
  exact (hf.page (h.heapOwn p hp) (by decide) hS).2.2 x (by omega) (by omega)

end Frame

/-- Nothing of memory and its accounts changed. -/
structure SameMach (s s' : KState) : Prop where
  mem : s'.mem = s.mem
  pageinfo : s'.pageinfo = s.pageinfo
  pageno : s'.pageno = s.pageno
  heapPages : s'.heapPages = s.heapPages
  freeList : s'.freeList = s.freeList

theorem SameMach.minv (h : SameMach s s') (hs : MInv E role used s) : MInv E role used s' :=
  hs.of_same h.mem h.pageinfo h.pageno h.heapPages h.freeList

theorem SameMach.frame {S : Int → Prop} (h : SameMach s s') : Frame S role s role s' :=
  fun pn _ _ => ⟨congrFun h.pageinfo pn, rfl, fun x _ => congrFun h.mem x⟩

/-- The heap and the kernel's own table changed, and the rest is as it
was. -/
theorem KInv.in_heap (h : KInv E G O role used s) (hm : MInv E role used' s')
    (hb : HeapBare role s') (hf : Frame (fun o => o = -2 ∨ o = -3) role s role s')
    (hpage : ∀ pn, s'.pageinfo pn = s.pageinfo pn ∨ s'.pageinfo pn = ⟨-3, 1⟩)
    (hproc : s'.processes = s.processes) (hcur : s'.current = s.current)
    (hfd : ∀ i : Int, 0 ≤ i → i < 16 → FdOk used' s'.mem (s.processes i).fdList) :
    KInv E G O role used' s' := by
  have hlive : ∀ i, s'.Live i → s.Live i := by
    intro i hi
    unfold KState.Live at hi
    rw [hproc] at hi
    exact hi
  refine ⟨hm, ⟨?_, ?_, ?_⟩, ?_, fun i hi => ?_, ?_, fun hO pn hpn hown => ?_, fun i h0 h16 => ?_,
    h.console, hb⟩
  · rw [hproc]
    exact h.numbered.pids
  · rw [hproc]
    exact h.numbered.zero
  · rw [hcur]
    exact h.numbered.current
  · rw [hproc]
    exact h.zero
  · have h1 := (hlive i hi).1
    rw [hproc]
    refine (h.live i (hlive i hi)).frame h.mach hf (by omega) ?_ (SameRole.refl _)
    omega
  · rw [hproc]
    exact h.table
  · rw [hproc]
    rcases hpage pn with heq | heq
    · rw [heq] at hown ⊢
      exact h.owner hO pn hpn hown
    · rw [heq] at hown
      exact absurd hown (by decide)
  · rw [hproc]
    exact hfd i h0 h16

/-- More blocks are in use, and the rest is as it was. -/
theorem KInv.of_heap (h : KInv E G O role used s) (hm : MInv E role used' s')
    (hb : HeapBare role s') (hw : HeapWork role used s s') (hsub : used ⊆ used') :
    KInv E G O role used' s' := by
  refine h.in_heap hm hb hw.frame hw.owner (by rw [hw.rest]) (by rw [hw.rest]) fun i h0 h16 => ?_
  exact ((h.fd i h0 h16).congr hw.kept).imp_right fun ⟨b, hbu, ha⟩ => ⟨b, hsub hbu, ha⟩

/-- The table of a process is not the kernel's. -/
theorem MInv.root_ne (h : MInv E role used s) (ho : 1 ≤ o)
    (hr : role root = some ⟨o, 0, 0⟩) : root * 4096 ≠ E.kernelPagetables := by
  intro heq
  rw [E.kernelPagetables_eq] at heq
  obtain rfl : root = E.ktab := by omega
  rw [h.kernel.root] at hr
  cases hr
  exact absurd ho (by decide)

/-- Work for process `o`, which may have a new table and a new entry. -/
theorem KInv.work (h : KInv E G O role used s) (hw : Work o k role s role' s')
    (hm : MInv E role' used s') (ho : 1 ≤ o ∧ o < 16) (hc : 1 ≤ s'.current ∧ s'.current < 16)
    (hother : ∀ i ≠ o, SameRole (s.processes i) (s'.processes i)
      ∧ (s'.processes i).fdList = (s.processes i).fdList)
    (hpid : (s'.processes o).pid = o) (hst : (s'.processes o).state ≠ .free)
    (hlive : s'.Live o → ProcOk E G role' s' o (s'.processes o))
    (hpt : (s'.processes o).pagetable ≠ E.kernelPagetables)
    (hfd : FdOk used s.mem (s'.processes o).fdList) : KInv E G O role' used s' := by
  have hframe := hw.frame
  have hzero : ((s'.processes 0).state) = (s.processes 0).state := (hother 0 (by omega)).1.state
  refine ⟨hm, ⟨fun i h0 h16 => ?_, ?_, hc⟩, hzero.trans h.zero, fun i hi => ?_, fun i h0 h16 => ?_,
    fun hO pn hpn hown => ?_, fun i h0 h16 => ?_, ?_, h.bare.work h.mach hw⟩
  · by_cases hi : i = o
    · rw [hi, hpid]
    · rw [(hother i hi).1.pid]
      exact h.numbered.pids i h0 h16
  · rw [hzero]
    exact h.numbered.zero
  · by_cases hio : i = o
    · subst hio
      exact hlive hi
    · obtain ⟨hrole, -⟩ := hother i hio
      have h1 := hi.1
      exact (h.live i ⟨hi.1, hi.2.1, hrole.state ▸ hi.2.2⟩).frame h.mach hframe (by omega) hio hrole
  · by_cases hi : i = o
    · rw [hi]
      exact hpt
    · rw [(hother i hi).1.pagetable]
      exact h.table i h0 h16
  · have hinfo := hw.pages pn
    by_cases hin : pn ∈ (freeQueue s).take k
    · rw [if_pos hin] at hinfo
      rw [hinfo]
      exact ⟨ho.2, hst⟩
    · rw [if_neg hin] at hinfo
      rw [hinfo] at hown ⊢
      obtain ⟨hlt, hold⟩ := h.owner hO pn hpn hown
      refine ⟨hlt, ?_⟩
      by_cases hio : (s.pageinfo pn).owner = o
      · rw [hio]
        exact hst
      · rw [(hother _ hio).1.state]
        exact hold
  · have hmem : ∀ b ∈ used, ∀ x, b.Has x → s'.mem x = s.mem x := fun b hb x hx =>
      h.mach.used_frame hframe (by omega) hb hx
    by_cases hi : i = o
    · rw [hi]
      exact hfd.congr hmem
    · rw [(hother i hi).2]
      exact (h.fd i h0 h16).congr hmem
  · rw [hw.role _ fun hin => ?_]
    · exact h.console
    · have hfree := (mem_freeQueue.mp hin).2
      rw [h.mach.boot 0xB8 (by decide) (show (-1 : Int) ≠ 0 by decide)] at hfree
      cases hfree

-- ==== plain writes

section Write

variable {m' : ByteMap} {p : Proc}

/-- Bytes outside the tables mean nothing to them. -/
theorem ProcOk.write (h : ProcOk E G role s i p) (ht : Tables s.mem role)
    (hm : ∀ x, m' x ≠ s.mem x → role (x / 4096) = none) :
    ProcOk E G role { s with mem := m' } i p := by
  refine ⟨?_, h.wait⟩
  obtain ⟨root, hpt, hsp, hfit⟩ := h.space
  have hleaf : ∀ va, leafEntry m' root va = leafEntry s.mem root va := fun va =>
    (ht.leafEntry_write hsp.isRoot hm va).1
  have hsp' : Space role { s with mem := m' } i root := by
    refine ⟨hsp.isRoot, fun va => ?_⟩
    rw [hleaf]
    exact hsp.entry va
  refine ⟨root, hpt, hsp', fun hG => ⟨hsp', fun v hv => ?_, ?_⟩⟩
  · dsimp only
    rw [hleaf]
    exact (hfit hG).kernel v hv
  · obtain ⟨v, h1, h2, pn, he, hown⟩ := (hfit hG).text
    exact ⟨v, h1, h2, pn, (hleaf _).trans he, hown⟩

/-- A write that misses the tables and the heap. -/
theorem MInv.write_plain (h : MInv E role used s)
    (hm : ∀ x, m' x ≠ s.mem x → role (x / 4096) = none ∧ (s.pageinfo (x / 4096)).owner ≠ -3) :
    MInv E role used { s with mem := m' } := by
  have hrole : ∀ pn q, role pn = some q → ∀ x, pn * 4096 ≤ x → x < pn * 4096 + 4096 →
      m' x = s.mem x := by
    intro pn q hq x h1 h2
    by_contra hne
    have hx : x / 4096 = pn := by omega
    have := (hm x hne).1
    rw [hx, hq] at this
    cases this
  obtain ⟨free, hinv⟩ := h.heap
  refine ⟨h.tables.congr fun pn q hq _ => hrole pn q hq,
    h.kernel.congr h.tables fun pn q hq _ => hrole pn q hq, fun pn hpn => ?_, h.own, h.boot,
    h.count, ⟨free, hinv.frame_pages fun x hx => ?_⟩, h.heapOwn, h.cursor⟩
  · dsimp only
    rw [h.tables.leafEntry_congr h.kernel.root fun pn l pre hp => hrole pn _ hp]
    exact h.identity pn hpn
  · by_contra hne
    obtain ⟨p, hp, h1, h2⟩ := hx
    have hal := hinv.page p hp
    have hx : x / 4096 = p / 4096 := by omega
    refine (hm x hne).2 ?_
    rw [hx, h.heapOwn p hp]

theorem KInv.write_plain (h : KInv E G O role used s)
    (hm : ∀ x, m' x ≠ s.mem x → role (x / 4096) = none ∧ (s.pageinfo (x / 4096)).owner ≠ -3) :
    KInv E G O role used { s with mem := m' } := by
  refine ⟨h.mach.write_plain hm, ⟨h.numbered.pids, h.numbered.zero, h.numbered.current⟩, h.zero,
    fun i hi => ?_, h.table, h.owner, fun i h0 h16 => ?_, h.console, h.bare⟩
  · exact (h.live i hi).write h.mach.tables fun x hx => (hm x hx).1
  · refine (h.fd i h0 h16).congr fun b hb x hx => ?_
    by_contra hne
    obtain ⟨free, hinv⟩ := h.mach.heap
    obtain ⟨p, hp, h1, h2⟩ := hinv.tiles.mem (List.mem_append_right _ hb) hx
    have hal := hinv.page p hp
    have hpage : x / 4096 = p / 4096 := by omega
    refine (hm x hne).2 ?_
    rw [hpage, h.mach.heapOwn p hp]

/-- What a process may have the kernel write. -/
theorem KInv.write_user (h : KInv E G O role used s) (hi : 1 ≤ i)
    (hm : ∀ x, m' x ≠ s.mem x → UserByte role s i x) :
    KInv E G O role used { s with mem := m' } := by
  refine h.write_plain fun x hx => ?_
  rcases hm x hx with hcon | ⟨hown, hr⟩
  · rw [hcon]
    refine ⟨h.console, ?_⟩
    rw [h.mach.boot 0xB8 (by decide) (show (-1 : Int) ≠ 0 by decide)]
    exact (by decide : (-1 : Int) ≠ -3)
  · refine ⟨hr, ?_⟩
    rw [hown]
    omega

theorem KInv.store_user (h : KInv E G O role used s) (hi : 1 ≤ i)
    (hbytes : ∀ d < n, UserByte role s i (a + d)) :
    KInv E G O role used { s with mem := store s.mem a n v } := by
  refine h.write_user hi fun x hx => ?_
  have hin : a ≤ x ∧ x < a + n := by
    by_contra hout
    exact hx (store_of_not_mem hout)
  have hd := hbytes (x - a) (by omega)
  rwa [Nat.add_sub_cancel' hin.1] at hd

end Write

-- ==== the self-check

section Check

variable {o : Int}

/-- The tables of a tree are its owner's. -/
theorem MInv.ownedTree (h : MInv E role used s) :
    ∀ n pn l pre, l + n = 3 → role pn = some ⟨o, l, pre⟩ →
      OwnedTree s o n (pn * 4096) 1 := by
  have hpage : ∀ pn p, role pn = some p → i32 (pn * 4096 / 4096) < 512
      ∧ (s.pageinfo (i32 (pn * 4096 / 4096)).toNat).owner = p.owner
      ∧ (s.pageinfo (i32 (pn * 4096 / 4096)).toNat).refcount = 1 := by
    intro pn p hp
    have hlt := h.tables.low pn p hp
    have hi : i32 (pn * 4096 / 4096) = pn := by
      unfold i32 u32
      omega
    rw [hi, Int.toNat_natCast, (h.own pn p hp).1]
    exact ⟨by omega, rfl, rfl⟩
  intro n
  induction n with
  | zero => exact fun pn l pre _ hp => hpage pn _ hp
  | succ n ih =>
    intro pn l pre hl hp
    refine ⟨hpage pn _ hp, fun i hi hne => ?_⟩
    rcases h.tables.upper pn o l pre hp (by omega) i (List.mem_range.mp hi)
      with h0 | ⟨c, hc, hrc⟩
    · exact absurd h0 hne
    · rw [hc, pteAddr_page c (by decide)]
      exact ih c _ _ (by omega) hrc

/-- A tree that maps the kernel to itself, for writing, passes. -/
theorem MInv.mappingsOk (h : MInv E role used s) (hr : role root = some ⟨o, 0, 0⟩)
    (hk : ∀ v, E.KernelPage v → ∃ f, leafEntry s.mem root (v * 4096) = v * 4096 + f
      ∧ f % 2 = 1 ∧ f / 2 % 2 = 1 ∧ f < 8) :
    MappingsOk E s.mem (root * 4096) := by
  have hpage : ∀ v, E.KernelPage v →
      (virtualMemoryLookup s.mem (root * 4096) (v * 4096)).pa = v * 4096
      ∧ (virtualMemoryLookup s.mem (root * 4096) (v * 4096)).perm / 2 % 2 = 1 := by
    intro v hv
    have hlt := E.kernelPage_lt hv
    obtain ⟨f, he, hodd, hw, hf⟩ := hk v hv
    rw [h.tables.lookup_some hr (by omega) (by omega), he]
    dsimp only
    omega
  refine ⟨Nat.mul_mod_left _ _, fun i hi => ?_, hpage 0x9F (.inr rfl)⟩
  have hi' := List.mem_range.mp hi
  have hv : E.KernelPage (0x40 + i) := .inl (by omega)
  have haddr : 0x40000 + i * 4096 = (0x40 + i) * 4096 := by omega
  rw [haddr]
  exact ⟨(hpage _ hv).1, fun _ => (hpage _ hv).2⟩

end Check

/-- `check_virtual_memory` finds nothing. -/
theorem KInv.check (h : KInv E True True role used s) :
    checkVirtualMemory E s = (.ok (), s) := by
  have hkernel : MappingsOk E s.mem E.kernelPagetables := by
    rw [E.kernelPagetables_eq]
    refine h.mach.mappingsOk h.mach.kernel.root fun v hv => ?_
    have hlt := E.kernelPage_lt hv
    obtain ⟨f, he, -, -, hf⟩ := h.mach.identity v (by omega)
    obtain rfl := hf hv
    exact ⟨7, he, rfl, rfl, by decide⟩
  have husers : kernelTableUsers E s = 0 := by
    refine List.length_eq_zero_iff.mpr (List.filter_eq_nil_iff.mpr fun i hi hx => ?_)
    have hi' := List.mem_range.mp hi
    exact h.table i (by omega) (by omega) (of_decide_eq_true hx).2
  have htree : OwnedTree s PO_KERNEL 3 E.kernelPagetables (1 + kernelTableUsers E s) := by
    rw [husers, E.kernelPagetables_eq]
    exact h.mach.ownedTree 3 E.ktab 0 0 rfl h.mach.kernel.root
  have hprocs : ∀ i ∈ List.range 16, ProcessOk E s i := by
    intro i hi hfree hbroken _
    have hi' := List.mem_range.mp hi
    have hlive : s.Live i := by
      refine ⟨?_, by omega, ?_⟩
      · by_contra hlt
        obtain rfl : i = 0 := by omega
        exact hfree h.zero
      · cases hst : (s.processes i).state with
        | free => exact absurd hst hfree
        | broken => exact absurd hst hbroken
        | runnable => exact .inl rfl
        | blocked => exact .inr rfl
    obtain ⟨root, hpt, hsp, hfit⟩ := (h.live i hlive).space
    rw [hpt]
    refine ⟨h.mach.mappingsOk hsp.isRoot fun v hv => ?_,
      h.mach.ownedTree 3 root 0 0 rfl hsp.isRoot⟩
    exact ⟨3, (hfit trivial).kernel v hv, rfl, rfl, by decide⟩
  have howners : ∀ pn ∈ List.range 512, 0 < (s.pageinfo pn).refcount →
      0 ≤ (s.pageinfo pn).owner → (s.processes (s.pageinfo pn).owner).state ≠ .free := by
    intro pn hpn hpos hown
    have hlt := List.mem_range.mp hpn
    have hcount := h.mach.count pn hlt
    exact (h.owner trivial pn hlt (by omega)).2
  unfold checkVirtualMemory
  rw [get_bind, assert_bind h.zero, assert_bind hkernel, assert_bind htree,
    assert_bind hprocs, assert_of howners]

end RojocOS.Kernel
