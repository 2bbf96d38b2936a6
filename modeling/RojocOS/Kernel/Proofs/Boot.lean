/-
The kernel at boot.

`kernel()` builds its own page table, marks the pages, starts the file
system and sets up two processes. If it gets as far as user mode, the
invariant holds (`Booted.up`); and with valid images that fit into
memory it does get there (`started_of_room`).
-/
import RojocOS.Fs.Proofs.Footprint
import RojocOS.Kernel.Proofs.FileCalls
import RojocOS.Kernel.Proofs.Machine

namespace RojocOS.Kernel

open ByteMap Prog

variable {E : KEnv} {s s' s3 : KState} {i o : Int} {k k1 k5 root1 : Nat} {m : ByteMap}
  {p : Place} {role' role2 role3 : Roles}
variable {pn root₅ : Nat} {used : List Blk} {s₀ s₂ t : KState} {role : Roles}

-- ==== the first state

/-- `pageinfo_init` on any state. -/
theorem pageinfoInit_info (s : KState) (h : pn < 512) :
    (pageinfoInit E s).2.pageinfo pn
      = ⟨bootOwner E pn, if bootOwner E pn ≠ 0 then 1 else 0⟩ := if_pos h

/-- The kernel's tables are pages of its image. -/
theorem kernelRoles_kernelPage (h : kernelRoles E pn = some p) :
    E.KernelPage pn ∧ p.owner = -2 := by
  have h1 := E.ktab_bounds
  have h2 := E.kernelPagetables_eq
  have h3 := E.pagetables_end
  have hin : E.ktab ≤ pn → pn < E.ktab + 5 → E.KernelPage pn := fun _ _ =>
    .inl (by omega)
  unfold kernelRoles at h
  split_ifs at h <;> cases h <;> exact ⟨hin (by omega) (by omega), rfl⟩

theorem MInv.bare_kernel (h : MInv E (kernelRoles E) used s) :
    HeapBare (kernelRoles E) s := by
  intro p hp
  rcases hr : kernelRoles E (p / 4096) with - | q
  · rfl
  · have hown := (h.own _ q hr).1
    rw [h.heapOwn p hp, (kernelRoles_kernelPage hr).2] at hown
    cases hown

/-- `kernel()` from the file system on. -/
def bootRest (E : KEnv) : KM Unit := do
  initFs E
  Prog.modify clearProcesses
  processSetup E 5 2 0
  processSetup E 1 1 0
  run E 1

/-- The kernel's table with page 0 read-only. -/
theorem boot_identity (ht : Tables m (kernelRoles E))
    (hk : KernelTree E m (kernelRoles E))
    (hid : ∀ va < 0x200000, leafEntry m E.ktab va = va / 4096 * 4096 + 7)
    (hpn : pn < 512) :
    leafEntry (store m ((E.ktab + 3) * 4096 + 8 * 0) 8 1) E.ktab (pn * 4096)
      = pn * 4096 + if pn = 0 then 1 else 7 := by
  have h := ht.leafEntry_page hk.root (hk.leaf 0 (by decide)) (v := 1) (by decide) (pn * 4096)
  rw [vpn_page (by omega)] at h
  refine h.trans ?_
  by_cases h0 : pn = 0
  · subst h0
    rw [if_pos rfl, if_pos (by decide)]
  · have hv0 : vpn 0 = 0 := by decide
    rw [hv0, if_neg h0, if_neg h0, hid _ (by omega), Nat.mul_div_cancel _ (by decide)]

/-- The state before there are processes. -/
theorem boot_mach (h : BootStart s₀) :
    ∃ s1, boot E s₀ = bootRest E s1 ∧ MInv E (kernelRoles E) [] s1
      ∧ (∀ pn < 512,
        s1.pageinfo pn = ⟨bootOwner E pn, if bootOwner E pn ≠ 0 then 1 else 0⟩)
      ∧ Beside s₀ s1 ∧ s1.processes = s₀.processes := by
  obtain ⟨m, hinit, ht, hk, hid, -⟩ := virtualMemoryInit_spec (E := E) s₀
  let s₂ := (pageinfoInit E { s₀ with mem := m }).2
  have hinfo : ∀ pn < 512, s₂.pageinfo pn
      = ⟨bootOwner E pn, if bootOwner E pn ≠ 0 then 1 else 0⟩ := fun pn hpn =>
    pageinfoInit_info { s₀ with mem := m } hpn
  have hmap := KernelTree.map_page (s := s₂) ht hk (show 0 % 4096 = 0 by decide)
    (by decide) (show 1 < 4096 by decide) (by decide)
  have hleaf := ht.leafTable_some hk.root (hk.leaf 0 (by decide))
  refine ⟨{ s₂ with mem := store m ((E.ktab + 3) * 4096 + 8 * 0) 8 1 }, ?_, ?_, hinfo, rfl, rfl⟩
  · unfold boot
    rw [bind_of_ok hinit, bind_of_ok (x := pageinfoInit E) rfl]
    exact bind_of_ok hmap
  · refine ⟨⟨ht.toTrees.store_leaf hleaf (by decide), ht.low⟩, ⟨hk.root, fun va hva => ?_⟩,
      fun pn hpn => ?_, fun pn p hp => ?_, fun pn hpn h0 => ?_, fun pn hpn => ?_,
      ⟨[], ?_⟩, fun p hp => ?_, ?_⟩
    · rw [ht.leafTable_store hleaf (by decide) hk.root]
      exact hk.leaf va hva
    · refine ⟨_, boot_identity ht hk hid hpn, ?_, ?_, fun hkp => if_neg ?_⟩
      · split <;> rfl
      · split <;> decide
      · have := E.kernelPage_lt hkp
        omega
    · obtain ⟨hkp, ho⟩ := kernelRoles_kernelPage hp
      have hlt := E.kernelPage_lt hkp
      rw [ho]
      refine ⟨?_, by decide⟩
      rw [show (_ : KState).pageinfo pn = _ from hinfo pn (by omega), bootOwner_kernel hkp]
      rfl
    · rw [show (_ : KState).pageinfo pn = _ from hinfo pn hpn, if_pos h0]
    · rw [show (_ : KState).pageinfo pn = _ from hinfo pn hpn]
      by_cases h0 : bootOwner E pn = 0
      · rw [if_pos h0, if_neg (not_not_intro h0)]
      · rw [if_neg h0, if_pos h0]
    · show HeapInv _ s₀.freeList s₀.heapPages [] []
      rw [h.freeList, h.heapPages]
      exact HeapInv.empty _
    · have hp : p ∈ s₀.heapPages := hp
      rw [h.heapPages] at hp
      cases hp
    · show s₀.pageno < 512
      rw [h.pageno]
      decide

-- ==== file system

/-- `fs_init` comes back, with the descriptor filled in if the disk
answers. -/
theorem initFs_ok (E : KEnv) (s : KState) :
    ∃ io d, initFs E s = (.ok (), { s with io := io, desc := d })
      ∧ (E.fsEnv.Reliable → s.desc = Fs.FsDescriptor.zero → d = Fs.fsdesc) := by
  rcases Fs.fsdr_outcome 0 12 s.world with h | ⟨hE, h⟩
  · have hcall := fsCall_of_ok (x := Fs.fsInit E.fsEnv s.desc) (bind_of_ok h)
    refine ⟨s.io + 1, _, (get_bind _ _).trans
      ((bind_of_ok hcall).trans rfl), fun _ h0 => ?_⟩
    rw [h0]
    rfl
  · have hcall := fsCall_of_err (x := Fs.fsInit E.fsEnv s.desc) (bind_of_error h)
    refine ⟨s.io + 1, s.desc, (get_bind _ _).trans
      ((bind_of_ok hcall).trans rfl), fun hE' => absurd hE' hE⟩

-- ==== processes

theorem kernelRoles_console (E : KEnv) : kernelRoles E 0xB8 = none := by
  rcases h : kernelRoles E 0xB8 with - | p
  · rfl
  · have := E.kernelPage_lt (kernelRoles_kernelPage h).1
    omega

/-- The console is not memory that is given away. -/
theorem MInv.console_reserved (h : MInv E role used s) : 0xB8 ∉ freeQueue s := by
  intro hin
  have hb : s.pageinfo 0xB8 = ⟨-1, 1⟩ := h.boot 0xB8 (by decide) (show (-1 : Int) ≠ 0 by decide)
  have h0 := (mem_freeQueue.mp hin).2
  rw [hb] at h0
  exact absurd h0 (by decide)

/-- A page of a process belongs to one of the two. -/
def BootOwners (s : KState) : Prop :=
  ∀ pn, pn < 512 → 1 ≤ (s.pageinfo pn).owner →
    (s.pageinfo pn).owner = 1 ∨ (s.pageinfo pn).owner = 5

theorem Work.bootOwners (h : Work o k role s role' s')
    (ho : o = 1 ∨ o = 5) (hs : BootOwners s) : BootOwners s' := by
  intro pn hpn hpos
  rw [h.pages pn] at hpos ⊢
  by_cases hin : pn ∈ (freeQueue s).take k
  · rw [if_pos hin]
    exact ho
  · rw [if_neg hin] at hpos ⊢
    exact hs pn hpn hpos

/-- The kernel is up: the invariant holds, and process 1 runs in its
program's pages. -/
structure Up (E : KEnv) (role : Roles) (s : KState) : Prop where
  inv : KInv E True True role [] s
  table : BootTable s
  space : ∃ root, (s.processes 1).pagetable = root * 4096 ∧ Fitted E role s 1 root
    ∧ ∀ va, leafEntry s.mem root va ≠ 0 → setupDom E 1 (vpn va)

theorem Up.running (h : Up E role s) : s.cur.state = .runnable := by
  rw [KState.cur, h.table.current]
  exact (h.table.entry 1 (by decide) (by decide)).state

theorem Up.cwd (h : Up E role s) : (s.processes 1).cwd = [Fs.slash] :=
  (h.table.entry 1 (by decide) (by decide)).cwd

theorem Up.live (h : Up E role s) : s.Live s.current :=
  ⟨h.inv.numbered.current.1, h.inv.numbered.current.2, .inl h.running⟩

/-- Two processes set up one after the other. -/
theorem SetUp.up
    (hinfo : ∀ pn < 512, (clearProcesses t).pageinfo pn
      = ⟨bootOwner E pn, if bootOwner E pn ≠ 0 then 1 else 0⟩)
    (hm : MInv E (kernelRoles E) [] (clearProcesses t))
    (h5 : SetUp E 2 5 [] root₅ k5 (kernelRoles E) (clearProcesses t) role2 s₂)
    (hproc5 : ∀ i, s₂.processes i = if i = 5 then
      setupProc E 2 0 root₅ (clearProcesses t) ((clearProcesses t).processes i)
      else (clearProcesses t).processes i)
    (h₁ : SetUp E 1 1 [] root1 k1 role2 s₂ role3 s3)
    (hproc1 : ∀ i, s3.processes i = if i = 1 then
      setupProc E 1 0 root1 s₂ (s₂.processes i) else s₂.processes i) :
    Up E role3 { s3 with current := 1 } := by
  have hentry : ∀ {i : Int}, 0 ≤ i → i < 16 → s3.processes i
      = if i = 1 then setupProc E 1 0 root1 s₂ (Proc.zero 1)
        else if i = 5 then setupProc E 2 0 root₅ (clearProcesses t) (Proc.zero 5)
        else { Proc.zero i with cwd := if i = 0 then [Fs.slash] else [] } := by
    intro i h0 h16
    rw [hproc1, hproc5, clearProcesses_entry t h0 h16]
    by_cases hi : i = 1
    · subst hi
      rfl
    · rw [if_neg hi, if_neg hi]
      by_cases hi' : i = 5
      · subst hi'
        rfl
      · rw [if_neg hi', if_neg hi']
  have hsame : SameMach s3 { s3 with current := 1 } := ⟨rfl, rfl, rfl, rfl, rfl⟩
  have hfit5 : Fitted E role3 s3 5 root₅ := h5.fitted.frame h5.inv h₁.work.frame (by decide)
  have hboot : BootOwners (clearProcesses t) := by
    intro pn hpn hpos
    rw [hinfo pn hpn] at hpos
    exact absurd hpos (by rcases bootOwner_cases E pn with hb | hb | hb <;> rw [hb] <;> decide)
  have howners := h₁.work.bootOwners (.inl rfl) (h5.work.bootOwners (.inr rfl) hboot)
  have hmach := hsame.minv h₁.inv
  have hzero : ((clearProcesses t).processes 0).cwd = [Fs.slash] :=
    congrArg Proc.cwd (clearProcesses_entry t (by decide) (by decide))
  have hzero2 : (s₂.processes 0).cwd = [Fs.slash] := by
    rw [hproc5, if_neg (by decide), hzero]
  have htable : BootTable { s3 with current := 1 } := by
    refine ⟨rfl, fun i h0 h16 => ?_⟩
    rw [hentry h0 h16]
    by_cases hi : i = 1
    · subst hi
      exact ⟨rfl, rfl, rfl, rfl, rfl, rfl, hzero2⟩
    · rw [if_neg hi]
      by_cases hi' : i = 5
      · subst hi'
        exact ⟨rfl, rfl, rfl, rfl, rfl, rfl, hzero⟩
      · have hne : ¬ (i = 1 ∨ i = 5) := not_or.mpr ⟨hi, hi'⟩
        rw [if_neg hi']
        refine ⟨rfl, rfl, (if_neg hne).symm, (if_neg hne).symm, rfl, rfl, ?_⟩
        simp only [hi, hi', or_false]
  have hstate : ∀ i : Int, 0 ≤ i → i < 16 →
      (s3.processes i).state = if i = 1 ∨ i = 5 then .runnable else .free :=
    fun i h0 h16 => (htable.entry i h0 h16).state
  have hone : s3.processes 1 = setupProc E 1 0 root1 s₂ (Proc.zero 1) :=
    hentry (by decide) (by decide)
  have hfive : s3.processes 5 = setupProc E 2 0 root₅ (clearProcesses t) (Proc.zero 5) :=
    hentry (by decide) (by decide)
  have hfit1' : Fitted E role3 { s3 with current := 1 } 1 root1 :=
    Fitted.of_same (s := s3) rfl rfl h₁.fitted
  have hfit5' : Fitted E role3 { s3 with current := 1 } 5 root₅ :=
    Fitted.of_same (s := s3) rfl rfl hfit5
  refine ⟨⟨hmach, htable.numbered, hstate 0 (by decide) (by decide), fun i hi => ?_,
    fun i h0 h16 => ?_, fun _ pn hpn hpos => ?_, fun i h0 h16 => .inl ?_, ?_, ?_⟩, htable,
    root1, congrArg Proc.pagetable hone, hfit1', h₁.dom⟩
  · -- a live process is one of the two
    obtain ⟨h1, h16, hlive⟩ := hi
    have hproc : i = 1 ∨ i = 5 := by
      by_contra hne
      rw [show ({ s3 with current := 1 } : KState).processes i = s3.processes i from rfl,
        hstate i (by omega) h16, if_neg hne] at hlive
      exact absurd hlive (by decide)
    have hwait : (s3.processes i).waitPid = -1 := by
      rw [(htable.entry i (by omega) h16).waitPid, if_pos hproc]
    refine ⟨?_, fun hw => ?_⟩
    · rcases hproc with rfl | rfl
      · exact ⟨root1, congrArg Proc.pagetable hone, hfit1'.space, fun _ => hfit1'⟩
      · exact ⟨root₅, congrArg Proc.pagetable hfive, hfit5'.space, fun _ => hfit5'⟩
    · have hw' : 1 ≤ (s3.processes i).waitPid := hw
      omega
  · show (s3.processes i).pagetable ≠ E.kernelPagetables
    by_cases hi : i = 1
    · rw [hi, hone]
      exact h₁.inv.root_ne (by decide) h₁.fitted.space.isRoot
    · by_cases hi' : i = 5
      · rw [hi', hfive]
        exact h₁.inv.root_ne (by decide) hfit5.space.isRoot
      · rw [hentry h0 h16, if_neg hi, if_neg hi']
        have := E.pagetables_start
        show 0 ≠ E.kernelPagetables
        omega
  · have hown := howners pn hpn hpos
    refine ⟨?_, ?_⟩
    · show (s3.pageinfo pn).owner < 16
      omega
    · show (s3.processes (s3.pageinfo pn).owner).state ≠ .free
      rw [hstate _ (by omega) (by omega), if_pos hown]
      decide
  · exact (htable.entry i h0 h16).fdList
  · have hq := hm.console_reserved
    have hq2 := h5.inv.console_reserved
    rw [h₁.work.role _ hq2, h5.work.role _ hq]
    exact kernelRoles_console E
  · have hbare : HeapBare role3 s3 := (hm.bare_kernel.work hm h5.work).work h5.inv h₁.work
    exact hbare

-- ==== booted

theorem clearProcesses_pid (s : KState) (h0 : 0 ≤ i) (h16 : i < 16) :
    ((clearProcesses s).processes i).pid = i :=
  congrArg Proc.pid (clearProcesses_entry s h0 h16)

theorem SetUp.pid_one (hproc5 : ∀ i, s₂.processes i = if i = 5 then
      setupProc E 2 0 root₅ (clearProcesses t) ((clearProcesses t).processes i)
      else (clearProcesses t).processes i) : (s₂.processes 1).pid = 1 := by
  rw [hproc5, if_neg (by decide)]
  exact clearProcesses_pid t (by decide) (by decide)

/-- A kernel that has started is up. -/
theorem Booted.up (h : Booted E s) : ∃ role, Up E role s := by
  obtain ⟨s₀, hstart, hboot⟩ := h
  obtain ⟨s1, heq, hm, hinfo, -⟩ := boot_mach hstart
  rw [heq] at hboot
  obtain ⟨io, d, hfs, -⟩ := initFs_ok E s1
  unfold bootRest at hboot
  rw [bind_of_ok hfs, bind_of_ok (x := Prog.modify clearProcesses) rfl] at hboot
  obtain ⟨_, s₂, h5, hboot⟩ := bind_ok.mp hboot
  obtain ⟨_, s3, h1, hrun⟩ := bind_ok.mp hboot
  obtain ⟨rfl, -⟩ := run_ok hrun
  have hm' : MInv E (kernelRoles E) [] (clearProcesses { s1 with io := io, desc := d }) :=
    hm.of_same rfl rfl rfl rfl rfl
  obtain ⟨role2, root₅, k5, hset5, -, hproc5⟩ := hm'.processSetup_ok (by decide)
    (clearProcesses_pid _ (by decide) (by decide)) h5
  obtain ⟨role3, root1, k1, hset1, -, hproc1⟩ := hset5.inv.processSetup_ok (by decide)
    (SetUp.pid_one hproc5) h1
  exact ⟨role3, SetUp.up (t := { s1 with io := io, desc := d }) hinfo hm' hset5 hproc5 hset1
    hproc1⟩

/-- The pages that are free at boot. -/
def bootFree (E : KEnv) : Nat :=
  ((List.range 512).filter fun pn => bootOwner E pn = PO_FREE).length

/-- What `kernel()` makes of the state the boot loader left. -/
structure Started (E : KEnv) (s₀ : KState) (role : Roles) (s : KState) : Prop where
  start : BootStart s₀
  boot : boot E s₀ = (.ok (), s)
  up : Up E role s
  disk : s.disk = s₀.disk
  desc : E.fsEnv.Reliable → s.desc = Fs.fsdesc
  heap : s.heapPages = []
  /-- What the two programs leave. -/
  room : bootFree E ≤ freePages s + loadSize (E.image 1).segments
    + loadSize (E.image 2).segments + 16
  /-- The memory around the process table is not touched. -/
  below : ∀ i : Int, i < 0 → s.processes i = s₀.processes i

theorem Started.booted (h : Started E s₀ role s) : Booted E s :=
  ⟨s₀, h.start, h.boot⟩

/-- With valid images and enough pages for them the kernel starts. -/
theorem started_of_room (hstart : BootStart s₀)
    (hmag : (E.image 1).magic = true ∧ (E.image 2).magic = true)
    (hroom : loadSize (E.image 1).segments + loadSize (E.image 2).segments + 12 ≤ bootFree E) :
    ∃ s role, Started E s₀ role s := by
  obtain ⟨s1, heq, hm, hinfo, hrest, hprocs⟩ := boot_mach hstart
  obtain ⟨io, d, hfs, hdesc⟩ := initFs_ok E s1
  generalize ht : ({ s1 with io := io, desc := d } : KState) = t at hfs
  have hm' : MInv E (kernelRoles E) [] (clearProcesses t) := by
    rw [← ht]
    exact hm.of_same rfl rfl rfl rfl rfl
  have hinfo' : ∀ pn < 512, (clearProcesses t).pageinfo pn
      = ⟨bootOwner E pn, if bootOwner E pn ≠ 0 then 1 else 0⟩ := by
    rw [← ht]
    exact hinfo
  have hfree : (freeQueue (clearProcesses t)).length = bootFree E := by
    rw [length_freeQueue]
    refine congrArg List.length (List.filter_congr fun pn hpn => ?_)
    rw [hinfo' pn (List.mem_range.mp hpn)]
  rcases hm'.processSetup (o := 5) (by decide) (clearProcesses_pid _ (by decide) (by decide))
    (by decide) hmag.2 0 with ⟨-, hfew⟩ | ⟨s₂, role2, root₅, k5, h5, hset5, hk5, hproc5⟩
  · omega
  have hleft : bootFree E ≤ (freeQueue s₂).length + k5 := by
    rw [← hfree, hset5.work.queue, List.length_drop]
    omega
  rcases hset5.inv.processSetup (by decide) (SetUp.pid_one hproc5)
    (by decide) hmag.1 0 with ⟨-, hfew⟩ | ⟨s3, role3, root1, k1, h1, hset1, hk1, hproc1⟩
  · omega
  have hup := SetUp.up hinfo' hm' hset5 hproc5 hset1 hproc1
  have hbeside := hset5.beside.trans hset1.beside
  have hrun : run E 1 s3 = (.ok (), { s3 with current := 1 }) := by
    have hone : (s3.processes 1).state = .runnable := by
      rw [hproc1, if_pos rfl]
      rfl
    have hpt : (s3.processes 1).pagetable = root1 * 4096 := by
      rw [hproc1, if_pos rfl]
      rfl
    unfold run
    rw [get_bind, assert_bind hone, bind_of_ok (x := Prog.modify _) rfl, hpt]
    obtain ⟨root, hroot, hfit, -⟩ := hup.space
    have hroot' : root1 * 4096 = root * 4096 := hpt.symm.trans hroot
    rw [hroot']
    exact hup.inv.mach.setPagetable_kmap hfit.space.isRoot hfit.kernel
  refine ⟨{ s3 with current := 1 }, role3, hstart, ?_, hup, ?_, fun hE => ?_, ?_, ?_,
    fun i hi => ?_⟩
  · rw [heq]
    unfold bootRest
    rw [bind_of_ok hfs, bind_of_ok (x := Prog.modify clearProcesses) rfl,
      bind_of_ok h5, bind_of_ok h1]
    exact hrun
  · show s3.disk = s₀.disk
    rw [hbeside, ← ht]
    show s1.disk = s₀.disk
    rw [hrest]
  · show s3.desc = Fs.fsdesc
    rw [hbeside, ← ht]
    refine hdesc hE ?_
    rw [hrest]
    exact hstart.desc
  · show s3.heapPages = []
    rw [hbeside, ← ht]
    rw [hrest]
    exact hstart.heapPages
  · have hlast : (freeQueue s₂).length ≤ (freeQueue s3).length + k1 := by
      rw [hset1.work.queue, List.length_drop]
      omega
    have hsame : freePages { s3 with current := 1 } = (freeQueue s3).length :=
      (length_freeQueue s3).symm
    rw [hsame]
    omega
  · show s3.processes i = s₀.processes i
    have hpos : ¬ (0 < i ∧ i < 16) := fun h => by omega
    rw [hproc1, if_neg (by omega), hproc5, if_neg (by omega), clearProcesses]
    dsimp only
    rw [if_neg (by omega), if_neg hpos, ← ht, hprocs]

/-- The small kernel with fuel for any walk through memory. -/
def patientKEnv : KEnv := { plainKEnv with fuel := 2 ^ 20 }

theorem blank_start : BootStart blank := ⟨rfl, rfl, rfl, rfl⟩

/-- The small kernel starts on a machine that has just been switched
on. -/
theorem plain_started : ∃ s role, Started plainKEnv blank role s :=
  started_of_room blank_start ⟨rfl, rfl⟩ (by decide +kernel)

theorem patient_started : ∃ s role, Started patientKEnv blank role s :=
  started_of_room blank_start ⟨rfl, rfl⟩ (by decide +kernel)

/-- It leaves more than 300 pages. -/
theorem Started.patient_room (h : Started patientKEnv blank role s) :
    300 ≤ freePages s := by
  have hroom := h.room
  have hfree : 330 ≤ bootFree patientKEnv := by decide +kernel
  have h1 : loadSize (patientKEnv.image 1).segments = 1 := by decide
  have h2 : loadSize (patientKEnv.image 2).segments = 1 := by decide
  omega

end RojocOS.Kernel
