/-
What `process_setup` leaves.

`Fitted` is a finished address space: the process reaches its own pages
and the console and nothing else, the kernel is mapped, and there is a
page of the process in the first 2 MiB. It does not say that there is a
stack: `process_setup` ignores a failure there, and the process faults
when it uses it.

The pages that decide are those before the stack: the root, the three
tables of the first 2 MiB and the pages of the program. With fewer of
them `process_setup` panics, with enough of them it returns
(`processSetup_spec`).
-/
import RojocOS.Kernel.Proofs.Setup

namespace RojocOS.Kernel

open ByteMap Prog

variable {E : KEnv} {role role' role'' : Roles} {used : List Blk} {s s' : KState}
  {o : Int} {root k c k' v : Nat} {D : Nat → Prop}
variable {V : Nat → Prop} {n : Nat} {s'' : KState} {g : Segment} {parent : Int}

/-- The address space of a process that can run. -/
structure Fitted (E : KEnv) (role : Roles) (s : KState) (o : Int) (root : Nat) :
    Prop where
  space : Space role s o root
  kernel : KMap E.KernelPage s.mem root
  text : ∃ v, 0x100 ≤ v ∧ v < 0x200 ∧ UserMap role s o root v

-- ==== stack

/-- Work that maps at most one page of the process, above the first
2 MiB. -/
theorem Loading.above (h : Loading E V role used s o root D) (hV : ∀ v, V v → v < 512)
    (hw : Work o k role s role' s')
    (hent : ∀ va, leafEntry s'.mem root va = leafEntry s.mem root va
      ∨ (vpn va = 0x2FF ∧ leafEntry s'.mem root va = c * 4096 + 7))
    (hc : OwnPage role s o c) (hc' : c < 512) :
    Space role' s' o root ∧ KMap V s'.mem root
      ∧ ∀ v < 512, UserMap role s o root v → UserMap role' s' o root v := by
  have h0 : o ≠ 0 := (h.inv.own root _ h.space.isRoot).2
  have hlow : ∀ v < 512,
      leafEntry s'.mem root (v * 4096) = leafEntry s.mem root (v * 4096) := by
    intro v hv
    rcases hent (v * 4096) with heq | ⟨hv', -⟩
    · exact heq
    · rw [vpn_page (by omega)] at hv'
      omega
  refine ⟨h.space.work h.inv hw fun va => ?_, fun v hv => ?_, fun v hv hu => ?_⟩
  · rcases hent va with heq | ⟨-, heq⟩
    · exact .inl heq
    · refine .inr (.inr ?_)
      have hdiv : (c * 4096 + 7) / 4096 = c := by omega
      rw [heq, hdiv]
      exact ⟨by omega, by omega, fun _ => .inr (hc.work hw h0)⟩
  · rw [hlow v (hV v hv), h.kernel v hv]
  · exact hu.same h0 hw (hlow v hv)

/-- The stack is mapped, or left out for want of pages. -/
theorem Loading.mapStack (h : Loading E E.KernelPage role used s o root D)
    (hcur : s.cur.pid = o) (ho : 1 ≤ o) :
    ∃ s' role' k, mapStack o (root * 4096) s = (.ok (), s')
      ∧ Built o k role s role' s' ∧ MInv E role' used s'
      ∧ Space role' s' o root ∧ KMap E.KernelPage s'.mem root
      ∧ (∀ v < 512, UserMap role s o root v → UserMap role' s' o root v)
      ∧ k ≤ 4 ∧ ∀ va, leafEntry s'.mem root va ≠ 0 → D (vpn va) ∨ vpn va = 0x2FF := by
  have hV : ∀ v, E.KernelPage v → v < 512 := fun v hv => by
    have := E.kernelPage_lt hv
    omega
  have hr := h.space.isRoot
  unfold Kernel.mapStack
  rcases h.inv.page_alloc (o := o) (by omega) with ⟨hnil, heq⟩
    | ⟨c, rest, s1, -, hc0, hc512, hcr, heq, hb1, hinv1, hinfo, -, hframe⟩
  · -- no page, hence no table for the stack either: nothing is mapped to page 0
    have hnone : leafTable s.mem root 0x2FF000 = none := h.high _ (by decide)
    obtain ⟨s', role', hrun, hb, hs', -, hg, -⟩ := Tending.map_stuck
      ⟨h.inv, hcur, hr⟩ ho 0x2FF000 0 1 7 (by decide) hnil hnone
    refine ⟨s', role', 0, ?_, hb, hs'.inv, ?_⟩
    · rw [bind_of_ok heq]
      exact bind_of_ok hrun
    · have hsame := fun va => hg.entry va
      refine ⟨h.space.work h.inv hb.toWork fun va => .inl (hsame va), fun v hv => ?_,
        fun v _ hu => hu.same (by omega) hb.toWork (hsame _), Nat.zero_le 4, fun va hne => ?_⟩
      · rw [hsame, h.kernel v hv]
      · rw [hsame] at hne
        exact .inl (h.dom va hne)
  have hown : OwnPage role s1 o c := ⟨by rw [hinfo], hcr⟩
  have hload1 := h.same hb1.toWork hinv1 fun va =>
    ⟨h.inv.leafEntry_frame hr hframe (fun hf => hf) va,
      h.inv.leafTable_frame hr hframe (fun hf => hf) va⟩
  have hkeep1 : ∀ v, UserMap role s o root v → UserMap role s1 o root v := fun v hu =>
    hu.same (by omega) hb1.toWork (h.inv.leafEntry_frame hr hframe (fun hf => hf) _)
  obtain ⟨r, role', s', k, hrun, hb, hs', hcase⟩ := (Tending.mapper ho).map
    ⟨hinv1, by rw [hb1.cur, hcur], hr⟩ 0x2FF000 (c * 4096) 1 7 ⟨by decide, by decide,
      by decide, by decide, by omega, by omega, by decide, by decide⟩
  have hk3 := missing_le s1.mem root 0x2FF000
  have hent : ∀ va, leafEntry s'.mem root va = leafEntry s1.mem root va
      ∨ (vpn va = 0x2FF ∧ leafEntry s'.mem root va = c * 4096 + 7) := by
    intro va
    rcases hcase with ⟨-, -, -, hg, -⟩ | ⟨-, hm, -⟩
    · exact .inl (hg.entry va)
    · rw [hm.entry va]
      by_cases hin : 0x2FF000 / 4096 ≤ vpn va ∧ vpn va < 0x2FF000 / 4096 + 1
      · have hv : vpn va = 0x2FF := by omega
        rw [if_pos hin, hv]
        exact .inr ⟨rfl, by omega⟩
      · exact .inl (if_neg hin)
  obtain ⟨hsp, hk, hkeep⟩ := hload1.above hV hb.toWork hent hown hc512
  refine ⟨s', role', 1 + k, ?_, hb1.trans hb, hs'.inv, hsp, hk,
    fun v hv hu => hkeep v hv (hkeep1 v hu), by omega, fun va hne => ?_⟩
  · rw [bind_of_ok heq]
    exact bind_of_ok hrun
  · rcases hent va with hsame | ⟨hv, -⟩
    · rw [hsame] at hne
      exact .inl (hload1.dom va hne)
    · exact .inr hv

-- ==== setup

/-- Variables of the kernel other than memory and its accounts. -/
theorem Loading.of_same (h : Loading E V role used s o root D)
    (hm : s'.mem = s.mem) (hp : s'.pageinfo = s.pageinfo) (hc : s'.pageno = s.pageno)
    (hh : s'.heapPages = s.heapPages) (hf : s'.freeList = s.freeList) :
    Loading E V role used s' o root D :=
  h.same (Work.of_same hm hp hc hh hf) (h.inv.of_same hm hp hc hh hf)
    fun _ => by rw [hm]; exact ⟨rfl, rfl⟩

/-- The entry `process_setup` leaves in the process table. -/
def setupProc (E : KEnv) (programNumber : Nat) (parent : Int) (root : Nat)
    (s : KState) (p : Proc) : Proc :=
  { p with
    registers := { initRegisters with
      rip := (E.image programNumber).entry, rsp := 0x300000 }
    pagetable := root * 4096
    parent := parent
    state := .runnable
    waitPid := -1
    fdMax := 0
    fdList := 0
    cwd := (s.processes parent).cwd }

theorem programLoad_eq (hn : n < 11) (hmag : (E.image n).magic = true) :
    programLoad E o n s = (loadSegments E o (E.image n).segments >>= fun r =>
      if r < 0 then pure (-1)
      else do
        Prog.modify fun s => s.updProc o fun p =>
          { p with registers := { p.registers with rip := (E.image n).entry } }
        pure 0) s := by
  unfold programLoad
  rw [assert_bind hn, assert_bind hmag]

/-- The first two statements of `process_setup`. -/
def setupStart (o : Int) (s : KState) : KState :=
  { s.updProc o fun p => { p with registers := initRegisters } with current := o }

/-- Its last statement. -/
def setupEnd (o parent : Int) (s : KState) : KState :=
  s.updProc o fun p =>
    { p with
      parent := parent
      state := .runnable
      waitPid := -1
      fdMax := 0
      fdList := 0
      cwd := (s.processes parent).cwd }

/-- The program and the stack. -/
def setupLoad (E : KEnv) (o : Int) (n : Nat) (parent : Int) (pagetable : Nat) :
    KM Unit := do
  let r ← programLoad E o n
  Prog.assert (0 ≤ r)
  Prog.modify fun s => s.updProc o fun p =>
    { p with registers := { p.registers with rsp := 0x300000 } }
  mapStack o pagetable
  Prog.modify (setupEnd o parent)

/-- All of it from the new root on. -/
def setupFrom (E : KEnv) (o : Int) (n : Nat) (parent : Int) (pagetable : Nat) :
    KM Unit := do
  Prog.assert (pagetable ≠ 0)
  mapKernel E pagetable
  Prog.modify fun s => s.updProc o fun p => { p with pagetable := pagetable }
  setupLoad E o n parent pagetable

theorem processSetup_eq (n : Nat) (parent : Int) :
    processSetup E o n parent s
      = (pagetableAlloc >>= setupFrom E o n parent) (setupStart o s) := by
  unfold processSetup
  rw [bind_of_ok (modify_apply _ s), bind_of_ok (modify_apply _ _)]
  rfl

theorem setupStart_cur (hpid : (s.processes o).pid = o) : (setupStart o s).cur.pid = o := by
  have h := s.updProc_same o fun p => { p with registers := initRegisters }
  exact (congrArg Proc.pid h).trans hpid

/-- Only memory, its accounts and the process table changed. -/
def Beside (s s' : KState) : Prop :=
  s' = { s with
    mem := s'.mem, pageinfo := s'.pageinfo, pageno := s'.pageno
    processes := s'.processes, current := s'.current }

theorem Beside.trans (h : Beside s s') (h' : Beside s' s'') : Beside s s'' := by
  unfold Beside at *
  rw [h', h]

theorem Built.beside (h : Built o k role s role' s') : Beside s s' := by
  unfold Beside
  rw [h.mach]

section Same

variable (hm : s'.mem = s.mem) (hp : s'.pageinfo = s.pageinfo)
include hm hp

theorem UserMap.of_same (h : UserMap role s o root v) : UserMap role s' o root v := by
  unfold UserMap OwnPage at *
  rw [hm, hp]
  exact h

theorem Fitted.of_same (h : Fitted E role s o root) : Fitted E role s' o root := by
  refine ⟨⟨h.space.isRoot, fun va => ?_⟩, ?_, ?_⟩
  · have he := h.space.entry va
    unfold EntryOk OwnPage at *
    rw [hm, hp]
    exact he
  · rw [hm]
    exact h.kernel
  · obtain ⟨v, h1, h2, hu⟩ := h.text
    exact ⟨v, h1, h2, hu.of_same hm hp⟩

end Same

theorem Segment.pages_pos (h : 0 < g.memsz) : 0 < g.pages := by
  unfold Segment.pages
  omega

/-- A program needs a page. -/
theorem loadSize_pos {gs : List Segment} (hg : g ∈ gs)
    (hl : g.load = true) (hpos : 0 < g.memsz) : 0 < loadSize gs := by
  induction gs with
  | nil => cases hg
  | cons g' gs ih =>
    unfold loadSize
    rcases List.mem_cons.mp hg with rfl | hg
    · have hp := Segment.pages_pos hpos
      rw [if_pos hl]
      omega
    · have := ih hg
      omega

/-- A program has a page in the text segment. -/
theorem Image.text_page (im : Image) : ∃ g ∈ im.segments, g.load = true
    ∧ g.Covers (g.va / 4096) ∧ 0x100 ≤ g.va / 4096 ∧ g.va / 4096 < 0x200 := by
  obtain ⟨g, hg, hl, hpos⟩ := im.text
  have hle := g.pages_le
  have hpages := Segment.pages_pos hpos
  exact ⟨g, hg, hl, ⟨Nat.le_refl _, by omega⟩, hle.1, by omega⟩

/-- The entry of a process after `setupLoad`. -/
def loadedProc (E : KEnv) (n : Nat) (parent : Int) (s : KState) (p : Proc) : Proc :=
  { p with
    registers := { p.registers with rip := (E.image n).entry, rsp := 0x300000 }
    parent := parent
    state := .runnable
    waitPid := -1
    fdMax := 0
    fdList := 0
    cwd := (s.processes parent).cwd }

/-- The page is one of a program's. -/
def Image.Covers (im : Image) (v : Nat) : Prop :=
  ∃ g ∈ im.segments, g.load = true ∧ g.Covers v

/-- The pages that `process_setup` maps. -/
def setupDom (E : KEnv) (n v : Nat) : Prop :=
  (kernelDom E v ∨ (E.image n).Covers v) ∨ v = 0x2FF

/-- The work of `process_setup` for `o`, with `k` pages. -/
structure SetUp (E : KEnv) (n : Nat) (o : Int) (used : List Blk) (root k : Nat)
    (role : Roles) (s : KState) (role' : Roles) (s' : KState) : Prop where
  work : Work o k role s role' s'
  inv : MInv E role' used s'
  fitted : Fitted E role' s' o root
  dom : ∀ va, leafEntry s'.mem root va ≠ 0 → setupDom E n (vpn va)
  beside : Beside s s'
  current : s'.current = o

/-- With work before it. -/
theorem SetUp.after
    (h : SetUp E n o used root k role' s' role'' s'') (hw : Work o k' role s role' s')
    (hb : Beside s s') : SetUp E n o used root (k' + k) role s role'' s'' :=
  ⟨hw.trans h.work, h.inv, h.fitted, h.dom, hb.trans h.beside, h.current⟩

/-- With the kernel mapped: the program is loaded, or the pages do not
suffice. -/
theorem Loading.setupLoad
    (h : Loading E E.KernelPage role used s o root
      fun v => kernelDom E v ∨ (E.image n).Covers v)
    (hcur : s.cur.pid = o) (hc : s.current = o) (ho : 1 ≤ o)
    (hpt : (s.processes o).pagetable = root * 4096) (hn : n < 11)
    (hmag : (E.image n).magic = true) (parent : Int) :
    ((∀ u s', Kernel.setupLoad E o n parent (root * 4096) s ≠ (.ok u, s'))
        ∧ (freeQueue s).length < loadSize (E.image n).segments)
      ∨ ∃ s' role' k, Kernel.setupLoad E o n parent (root * 4096) s = (.ok (), s')
          ∧ SetUp E n o used root k role s role' s'
          ∧ k ≤ loadSize (E.image n).segments + 4
          ∧ ∀ i, s'.processes i
            = if i = o then loadedProc E n parent s (s.processes i)
              else s.processes i := by
  obtain ⟨r, s1, role1, k1, hrun1, hb1, hload1, -, hcase⟩ := loadSegments_spec ho
    (E.image n).segments s role h hcur hpt fun v => .inr
  unfold Kernel.setupLoad
  rcases hcase with ⟨rfl, hnil, hless⟩ | ⟨rfl, rfl, huser⟩
  · have hload : programLoad E o n s = (.ok (-1), s1) := by
      rw [programLoad_eq hn hmag, bind_of_ok hrun1]
      rfl
    refine .inl ⟨fun u s' hx => ?_, ?_⟩
    · rw [bind_of_ok hload, bind_of_error (assert_of_not (by decide))] at hx
      cases hx
    · have hq := hb1.queue
      rw [hnil] at hq
      have hlen := congrArg List.length hq.symm
      rw [List.length_drop, List.length_nil] at hlen
      omega
  · have hload : programLoad E o n s = (.ok 0, s1.updProc o fun p =>
        { p with registers := { p.registers with rip := (E.image n).entry } }) := by
      rw [programLoad_eq hn hmag, bind_of_ok hrun1]
      rfl
    rw [bind_of_ok hload, assert_bind (Int.le_refl 0), bind_of_ok (modify_apply _ _)]
    generalize hs2 : (s1.updProc o fun p => { p with
      registers := { p.registers with rip := (E.image n).entry } }) = s2
    generalize hs3 : (s2.updProc o fun p => { p with
      registers := { p.registers with rsp := 0x300000 } }) = s3
    have hproc3 : ∀ i, s3.processes i = if i = o then
        { s.processes i with registers := { (s.processes i).registers with
            rip := (E.image n).entry, rsp := 0x300000 } }
        else s.processes i := by
      intro i
      rw [← hs3, ← hs2, ← hb1.processes]
      unfold KState.updProc
      by_cases hi : i = o
      · simp only [if_pos hi]
      · simp only [if_neg hi]
    have hload3 : Loading E E.KernelPage role1 used s3 o root
        fun v => kernelDom E v ∨ (E.image n).Covers v := by
      rw [← hs3, ← hs2]
      exact hload1.of_same rfl rfl rfl rfl rfl
    have hc3 : s3.current = o := by
      rw [← hs3, ← hs2]
      exact hb1.current.trans hc
    have hcur3 : s3.cur.pid = o := by
      unfold KState.cur at hcur ⊢
      rw [hc] at hcur
      rw [hc3, hproc3, if_pos rfl]
      exact hcur
    obtain ⟨s4, role4, k4, hrun4, hb4, hinv4, hsp4, hk4, hkeep4, hfew4, hdom4⟩ :=
      hload3.mapStack hcur3 ho
    have hw3 : Work o 0 role1 s1 role1 s3 := by
      rw [← hs3, ← hs2]
      exact Work.of_same rfl rfl rfl rfl rfl
    have hw5 : Work o 0 role4 s4 role4 (setupEnd o parent s4) :=
      Work.of_same rfl rfl rfl rfl rfl
    have hsame3 : s3.mem = s1.mem ∧ s3.pageinfo = s1.pageinfo ∧ Beside s1 s3 := by
      rw [← hs3, ← hs2]
      exact ⟨rfl, rfl, rfl⟩
    obtain ⟨g, hg, hl, hcov, h1, h2⟩ := (E.image n).text_page
    have hfit4 : Fitted E role4 s4 o root := ⟨hsp4, hk4, g.va / 4096, h1, h2,
      hkeep4 _ h2 ((huser _ ⟨g, hg, hl, hcov⟩).of_same hsame3.1 hsame3.2.1)⟩
    have hfit5 : Fitted E role4 (setupEnd o parent s4) o root :=
      Fitted.of_same (s := s4) rfl rfl hfit4
    refine .inr ⟨setupEnd o parent s4, role4, _, ?_,
      ⟨((hb1.toWork.trans hw3).trans hb4.toWork).trans hw5,
        hinv4.of_same rfl rfl rfl rfl rfl, hfit5, hdom4,
        ((hb1.beside.trans hsame3.2.2).trans hb4.beside).trans rfl,
        hb4.current.trans hc3⟩, by omega, fun i => ?_⟩
    · rw [bind_of_ok hrun4]
      rfl
    · -- the entries for `o` change in turn, and none of them the directory
      have hcwd : (s3.processes parent).cwd = (s.processes parent).cwd := by
        rw [hproc3]
        split <;> rfl
      unfold setupEnd KState.updProc loadedProc
      rw [hb4.processes]
      by_cases hi : i = o
      · dsimp only
        rw [if_pos hi, if_pos hi, hcwd, hproc3 i, if_pos hi]
      · simp only [if_neg hi, hproc3]

/-- The work on a root table: `setupLoad` behind the kernel's mappings. -/
theorem MInv.setupFrom (h : MInv E role used s) (hcur : s.cur.pid = o)
    (hc : s.current = o) (ho : 1 ≤ o) (hr : role root = some ⟨o, 0, 0⟩)
    (hempty : ∀ va l, 0 < l → reach s.mem root va l = none) (hn : n < 11)
    (hmag : (E.image n).magic = true) (parent : Int) :
    ((∀ u s', Kernel.setupFrom E o n parent (root * 4096) s ≠ (.ok u, s'))
        ∧ (freeQueue s).length < 3 + loadSize (E.image n).segments)
      ∨ ∃ s' role' k, Kernel.setupFrom E o n parent (root * 4096) s = (.ok (), s')
          ∧ SetUp E n o used root k role s role' s'
          ∧ k ≤ loadSize (E.image n).segments + 7
          ∧ ∀ i, s'.processes i = if i = o then
              loadedProc E n parent s { s.processes i with pagetable := root * 4096 }
            else s.processes i := by
  have hroot : root ≠ 0 := h.role_pos hr ho
  obtain ⟨s1, role1, k1, hrun1, hb1, hcase⟩ := h.mapKernel_spec hcur ho hr hempty
  generalize hs2 : (s1.updProc o fun p => { p with pagetable := root * 4096 }) = s2
  have hstart : Kernel.setupFrom E o n parent (root * 4096) s
      = Kernel.setupLoad E o n parent (root * 4096) s2 := by
    rw [← hs2]
    unfold Kernel.setupFrom
    rw [assert_bind (by omega), bind_of_ok hrun1]
    rfl
  have hproc2 : ∀ i, s2.processes i = if i = o then
      { s.processes i with pagetable := root * 4096 } else s.processes i := by
    intro i
    rw [← hs2, ← hb1.processes]
    rfl
  have hpt2 : (s2.processes o).pagetable = root * 4096 := by
    rw [hproc2, if_pos rfl]
  rw [hstart]
  rcases hcase with ⟨rfl, hload1⟩ | ⟨hk1, hinv1, hnil, hr1, hnone⟩
  · have hload2 : Loading E E.KernelPage role1 used s2 o root
        fun v => kernelDom E v ∨ (E.image n).Covers v := by
      have hmore : Loading E E.KernelPage role1 used s1 o root
          fun v => kernelDom E v ∨ (E.image n).Covers v :=
        { hload1 with dom := fun va hne => .inl (hload1.dom va hne) }
      rw [← hs2]
      exact hmore.of_same rfl rfl rfl rfl rfl
    have hw2 : Work o 0 role1 s1 role1 s2 := by
      rw [← hs2]
      exact Work.of_same rfl rfl rfl rfl rfl
    have hb2 : Beside s1 s2 := by
      rw [← hs2]
      rfl
    have hc2 : s2.current = o := by
      rw [← hs2]
      exact hb1.current.trans hc
    have hcur2 : s2.cur.pid = o := by
      unfold KState.cur at hcur ⊢
      rw [hc] at hcur
      rw [hc2, hproc2, if_pos rfl]
      exact hcur
    have hw := hb1.toWork.trans hw2
    rcases hload2.setupLoad hcur2 hc2 ho hpt2 hn hmag parent
      with ⟨hno, hless⟩ | ⟨s', role', k, hrun, hset, hfew, hproc⟩
    · refine .inl ⟨hno, ?_⟩
      have hq := congrArg List.length hw.queue
      rw [List.length_drop] at hq
      omega
    · refine .inr ⟨s', role', _, hrun, hset.after hw (hb1.beside.trans hb2), by omega,
        fun i => ?_⟩
      have hcwd : (s2.processes parent).cwd = (s.processes parent).cwd := by
        rw [hproc2]
        split <;> rfl
      rw [hproc, hproc2]
      unfold loadedProc
      rw [hcwd]
      by_cases hi : i = o
      · simp only [if_pos hi]
      · simp only [if_neg hi]
  · -- the kernel is not mapped: the loader finds no page
    refine .inl ⟨fun u s' hrun => ?_, ?_⟩
    · have hinv2 : MInv E role1 used s2 := by
        rw [← hs2]
        exact hinv1.of_same rfl rfl rfl rfl rfl
      have hnil2 : freeQueue s2 = [] := by
        rw [← hs2]
        exact hnil
      have hnone2 : ∀ va, region va = 0 → leafTable s2.mem root va = none := by
        rw [← hs2]
        exact hnone
      obtain ⟨r, s3, hload, hrest⟩ := bind_ok.mp hrun
      rw [programLoad_eq hn hmag] at hload
      obtain ⟨r', s4, hsegs, hend⟩ := bind_ok.mp hload
      obtain ⟨g, hg, hl, hpos⟩ := (E.image n).text
      obtain rfl := loadSegments_stuck hinv2 hr1 ho hnil2 hnone2 hpt2 _ ⟨g, hg, hl, hpos⟩
        r' s4 hsegs
      rw [if_pos (by decide)] at hend
      cases hend
      rw [bind_of_error (assert_of_not (by decide))] at hrest
      cases hrest
    · obtain ⟨g, hg, hl, hpos⟩ := (E.image n).text
      have hsize := loadSize_pos hg hl hpos
      have hq := congrArg List.length hb1.queue
      rw [hnil, List.length_drop, List.length_nil] at hq
      omega

/-- `process_setup` returns exactly if the pages suffice, the stack apart,
and leaves a process that can run. -/
theorem MInv.processSetup (h : MInv E role used s) (ho : 1 ≤ o)
    (hpid : (s.processes o).pid = o) (hn : n < 11)
    (hmag : (E.image n).magic = true) (parent : Int) :
    ((∀ u s', Kernel.processSetup E o n parent s ≠ (.ok u, s'))
        ∧ (freeQueue s).length < 4 + loadSize (E.image n).segments)
      ∨ ∃ s' role' root k, Kernel.processSetup E o n parent s = (.ok (), s')
          ∧ SetUp E n o used root k role s role' s'
          ∧ k ≤ loadSize (E.image n).segments + 8
          ∧ ∀ i, s'.processes i = if i = o then setupProc E n parent root s (s.processes i)
              else s.processes i := by
  have hcur := setupStart_cur hpid
  have h0 : MInv E role used (setupStart o s) := h.of_same rfl rfl rfl rfl rfl
  have hw0 : Work o 0 role s role (setupStart o s) := Work.of_same rfl rfl rfl rfl rfl
  have hproc0 : ∀ i, (setupStart o s).processes i = if i = o then
      { s.processes i with registers := initRegisters } else s.processes i := fun i => rfl
  have hq0 : freeQueue (setupStart o s) = freeQueue s := rfl
  have hc0 : (setupStart o s).current = o := rfl
  have hb0 : Beside s (setupStart o s) := rfl
  rw [processSetup_eq]
  generalize setupStart o s = t at *
  rcases h0.new_root hcur ho with ⟨hnil, heq⟩
    | ⟨root, rest, s1, hq, hroot, heq, hb1, hinv1, hempty⟩
  · refine .inl ⟨fun u s' hrun => ?_, ?_⟩
    · rw [bind_of_ok heq, Kernel.setupFrom,
        bind_of_error (assert_of_not fun hx => hx rfl)] at hrun
      cases hrun
    · rw [← hq0, hnil, List.length_nil]
      omega
  have hw1 := hw0.trans hb1.toWork
  have hlen := congrArg List.length hw1.queue
  rw [List.length_drop] at hlen
  rw [bind_of_ok heq]
  rcases hinv1.setupFrom (hb1.cur.symm ▸ hcur) (hb1.current.trans hc0) ho Roles.add_same
      hempty hn hmag parent
    with ⟨hno, hless⟩ | ⟨s', role', k, hrun, hset, hfew, hproc⟩
  · exact .inl ⟨hno, by omega⟩
  · refine .inr ⟨s', role', root, _, hrun, hset.after hw1 (hb0.trans hb1.beside), by omega,
      fun i => ?_⟩
    have hcwd : (t.processes parent).cwd = (s.processes parent).cwd := by
      rw [hproc0]
      split <;> rfl
    rw [hproc, hb1.processes, hproc0]
    unfold loadedProc setupProc
    rw [hb1.processes, hcwd]
    by_cases hi : i = o
    · simp only [if_pos hi]
    · simp only [if_neg hi]

/-- The image is checked. -/
theorem processSetup_magic (h : Kernel.processSetup E o n parent s = (.ok (), s')) :
    n < 11 ∧ (E.image n).magic = true := by
  rw [processSetup_eq] at h
  obtain ⟨pagetable, s1, -, h2⟩ := bind_ok.mp h
  obtain ⟨_, s2, -, h4⟩ := bind_ok.mp h2
  obtain ⟨_, s3, -, h6⟩ := bind_ok.mp h4
  obtain ⟨_, s4, -, h8⟩ := bind_ok.mp h6
  obtain ⟨_, s5, h9, -⟩ := bind_ok.mp h8
  obtain ⟨_, s6, h11, h12⟩ := bind_ok.mp h9
  obtain ⟨_, s7, h13, -⟩ := bind_ok.mp h12
  exact ⟨(assert_ok.mp h11).1, (assert_ok.mp h13).1⟩

/-- A `process_setup` that returned. -/
theorem MInv.processSetup_ok (h : MInv E role used s) (ho : 1 ≤ o)
    (hpid : (s.processes o).pid = o)
    (hrun : Kernel.processSetup E o n parent s = (.ok (), s')) :
    ∃ role' root k, SetUp E n o used root k role s role' s'
      ∧ k ≤ loadSize (E.image n).segments + 8
      ∧ ∀ i, s'.processes i = if i = o then setupProc E n parent root s (s.processes i)
          else s.processes i := by
  obtain ⟨hn, hmag⟩ := processSetup_magic hrun
  rcases h.processSetup ho hpid hn hmag parent
    with ⟨hno, -⟩ | ⟨s1, role', root, k, hrun', hset, hfew, hproc⟩
  · exact absurd hrun (hno () s')
  · rw [hrun] at hrun'
    cases hrun'
    exact ⟨role', root, k, hset, hfew, hproc⟩

end RojocOS.Kernel
