/-
`sys_fork`.

The handler takes a free slot and a root table, runs the copy loop and
fills in the slot. With as many free pages as `forkCost` says, the child
is a copy of the parent (`fork_copies`). With fewer, and one at least, it
never is: the kernel panics in the loop, or the call returns a child that
lacks a page. So the call is all or nothing exactly when it finds no
slot, or no page for the root, or pages for everything
(`fork_whole_iff`).
-/
import RojocOS.Kernel.Proofs.ForkLoop
import RojocOS.Kernel.Proofs.ProcTable

namespace RojocOS.Kernel

open ByteMap Prog

variable {k root v i pn t : Nat} {P : Nat → Prop} {role : Roles} {p : Place}

-- ==== the call

/-- The state that a fork into slot `c` ends in, from the one after the
loop. -/
def forkDone (s : KState) (c : Int) (root : Nat) (s₂ : KState) : KState :=
  ({ forkChild s.current c (root * 4096) s₂ with current := s.current }).updProc s.current
    fun p => { p with registers := { p.registers with rax := reg64 c } }

/-- The state that a fork without a slot or without a page ends in. -/
def forkRefused (s : KState) : KState :=
  s.updProc s.current
    fun p => { p with registers := { p.registers with rax := reg64 (-1) } }

section Call

variable {s s₂ : KState} {c : Nat}

/-- The root table: a cleared page of the child. -/
theorem ForkReady.start (h : ForkReady s) (hc : freeSlot s = some c) :
    (freeQueue s = [] ∧ pagetableAlloc { s with current := c }
        = (.ok 0, { s with current := c }))
      ∨ ∃ root s1 role, root ≠ 0
          ∧ pagetableAlloc { s with current := c } = (.ok (root * 4096), s1)
          ∧ Copying s c root 0 (Owned s) role s1 ∧ Whole s c root 0 1 (Owned s) s1 := by
  obtain ⟨h1, h16, -⟩ := freeSlot_some hc
  have hcur : ({ s with current := (c : Int) } : KState).cur.pid = c :=
    h.pids c (by omega) (by omega)
  have hst : Stocked (Owned s) c { s with current := (c : Int) } :=
    ⟨hcur, h.cursor, h.zero, fun _ hp => hp⟩
  rw [pagetableAlloc_eq hcur]
  rcases hst.page_alloc (by omega)
    with hnil | ⟨root, s1, hroot, hr0, hlt, heq, htook, hst1, hinfo, hmem⟩
  · exact .inl hnil
  have hz : ∀ x, root * 4096 ≤ x → x < root * 4096 + 4096 → s1.mem x = 0 := by
    intro x h1 h2
    rw [hmem]
    exact fill_of_mem ⟨h1, h2⟩
  have hown : Owned s1 root := by
    unfold Owned
    rw [hinfo]
    show (c : Int) ≠ 0
    omega
  have htree : Tree (Stocked (Owned s) c) (Loose (Owned s)) root _ s1 :=
    Tree.empty hst1 hz ⟨hown, not_owned_of_free hroot, hlt⟩
  have hreach : ∀ va, reach s1.mem root va 1 = none := by
    intro va
    rw [reach_succ_some (rfl)]
    refine if_pos (load_eq_zero.mpr fun x h1 h2 => hz x ?_ ?_)
    · exact Nat.le_trans (Nat.le_add_right _ _) h1
    · have := pageindex_lt va 0
      omega
  have htable : ∀ va, leafTable s1.mem root va = none := fun va => by
    rw [leafTable_eq_reach]
    exact reach_none_of_le (hreach va) (by decide)
  refine .inr ⟨root, s1, _, hr0, heq, ⟨htree, fun _ hp => hp, ⟨1, htook⟩, fun va _ => ?_⟩,
    ⟨htook, fun w hw => absurd hw (Nat.not_lt_zero w),
      fun w w' hw => absurd hw (Nat.not_lt_zero w), fun _ => hreach 0,
      fun w hw => absurd hw (Nat.not_lt_zero w), fun u _ =>
        ⟨fun _ w hw => absurd hw (Nat.not_lt_zero w), fun _ => htable _⟩⟩⟩
  unfold leafEntry
  rw [htable]

/-- How a fork with a slot ends. -/
theorem ForkReady.run (h : ForkReady s) (hc : freeSlot s = some c) :
    (freeQueue s = [] ∧ sysFork s = (.ok (), forkRefused s))
      ∨ ∃ root, root ≠ 0 ∧ freeQueue s ≠ []
          ∧ ((∃ P role s₂, Copying s c root 768 P role s₂
                ∧ Whole s c root 768 (forkCost s) P s₂
                ∧ sysFork s = (.ok (), forkDone s c root s₂))
            ∨ ((freeQueue s).length < forkCost s
                ∧ ((∃ t, sysFork s = (.error .panic, t))
                  ∨ ∃ P role s₂ w, Copying s c root 768 P role s₂ ∧ w < 768
                      ∧ forkEntry s w % 2 = 1 ∧ leafEntry s₂.mem root (w * 4096) = 0
                      ∧ sysFork s = (.ok (), forkDone s c root s₂)))) := by
  obtain ⟨h1, h16, -⟩ := freeSlot_some hc
  have hcall : sysFork s = forkInto c s := by
    unfold sysFork
    rw [get_bind, hc]
  rw [hcall]
  unfold forkInto
  rw [get_bind, bind_of_ok (x := Prog.modify _) rfl]
  rcases h.start hc with ⟨hnil, heq⟩ | ⟨root, s1, role, hr0, heq, hcopy, hwhole⟩
  · refine .inl ⟨hnil, ?_⟩
    rw [bind_of_ok heq, if_pos rfl]
    rfl
  · have hpages : freeQueue s ≠ [] := by
      intro hnil
      have henough := hwhole.took.enough
      change 1 ≤ (freeQueue s).length at henough
      rw [hnil] at henough
      exact absurd henough (by decide)
    refine .inr ⟨root, hr0, hpages, ?_⟩
    rw [bind_of_ok heq, if_neg (by omega)]
    obtain ⟨out, t, hloop, hcase⟩ := Whole.loop h (by omega) 768 0 1
      (Owned s) role s1 rfl hcopy hwhole
    rw [Nat.zero_mul] at hloop
    rcases hcase with ⟨rfl, P, role', hcop, hwh⟩ | ⟨hshort, rfl | ⟨rfl, ⟨P, role', hcop⟩,
      w, hw, hodd, hzero⟩⟩
    · exact .inl ⟨P, role', t, hcop, hwh, (bind_of_ok hloop).trans rfl⟩
    · exact .inr ⟨hshort, .inl ⟨t, bind_of_error hloop⟩⟩
    · exact .inr ⟨hshort, .inr ⟨P, role', t, w, hcop, hw, hodd, hzero,
        (bind_of_ok hloop).trans rfl⟩⟩

-- ==== the copy

/-- Page `v` of process `c`. -/
def childView (s : KState) (c : Int) (v : Nat) : VaMapping :=
  virtualMemoryLookup s.mem (s.processes c).pagetable (v * 4096)

/-- Process `c` of `s'` is a copy of the running process of `s`: the pages
below `MEMSIZE_VIRTUAL`, which are 768, are mapped alike and hold the same
bytes, those of the parent in pages that were free, each in one of its
own. All that was in use before, the parent's tables and pages with it,
is as it was. -/
structure ForkCopy (s : KState) (c : Int) (s' : KState) : Prop where
  maps : ∀ v, v < 768 → ((childView s' c v).pn = -1 ↔ (forkView s v).pn = -1)
    ∧ (childView s' c v).perm = (forkView s v).perm
  bytes : ∀ v, v < 768 → MapsPage s v → ∀ i, i < 4096 →
    s'.mem ((childView s' c v).pa + i) = s.mem ((forkView s v).pa + i)
  copied : ∀ v, v < 768 → MapsPage s v → OwnsPage s v →
    ¬ Owned s (childView s' c v).pn.toNat
      ∧ (s'.pageinfo (childView s' c v).pn.toNat).owner = c
  apart : ∀ v w, v < 768 → w < 768 → v ≠ w → MapsPage s v → MapsPage s w →
    OwnsPage s v → OwnsPage s w → (childView s' c v).pn ≠ (childView s' c w).pn
  shared : ∀ v, v < 768 → MapsPage s v → ¬ OwnsPage s v → childView s' c v = forkView s v
  table : ∀ va, virtualMemoryLookup s'.mem s'.cur.pagetable va
    = virtualMemoryLookup s.mem s.cur.pagetable va
  kept : ∀ pn, Owned s pn → s'.pageinfo pn = s.pageinfo pn
    ∧ ∀ x, x / 4096 = pn → s'.mem x = s.mem x
  current : s'.current = s.current
  registers : s'.cur.registers = { s.cur.registers with rax := reg64 c }
    ∧ (s'.processes c).registers = { s.cur.registers with rax := 0 }
  state : (s'.processes c).state = .runnable

theorem ForkReady.slot_ne (h : ForkReady s) (hc : freeSlot s = some c) :
    (c : Int) ≠ s.current := by
  intro hx
  apply h.running
  show (s.processes s.current).state = .free
  rw [← hx]
  exact (freeSlot_some hc).2.2

theorem forkDone_parent (root : Nat) (hne : (c : Int) ≠ s.current)
    (hp : s₂.processes = s.processes) :
    (forkDone s c root s₂).cur
      = { s.cur with registers := { s.cur.registers with rax := reg64 c } } := by
  have hother : (forkChild s.current c (root * 4096) s₂).processes s.current
      = s.processes s.current := by
    unfold forkChild
    rw [KState.updProc_other _ _ (Ne.symm hne), hp]
  refine (KState.updProc_same _ s.current _).trans ?_
  exact congrArg (fun p : Proc =>
    { p with registers := { p.registers with rax := reg64 c } }) hother

theorem forkDone_child (hne : (c : Int) ≠ s.current) (hp : s₂.processes = s.processes) :
    (forkDone s c root s₂).processes c
      = { s.processes c with
          parent := s.cur.pid
          pagetable := root * 4096
          registers := { s.cur.registers with rax := 0 }
          state := .runnable
          waitPid := -1
          cwd := s.cur.cwd } := by
  show (KState.updProc _ s.current _).processes c = _
  rw [KState.updProc_other _ _ hne]
  unfold forkChild
  rw [KState.updProc_same, hp]
  rfl

/-- The child's page in terms of its entry. -/
theorem Copying.child_view
    (h : Copying s c root 768 P role s₂) (hne : (c : Int) ≠ s.current) (v : Nat)
    (hlow : leafEntry s₂.mem root (v * 4096) % 2 = 1 →
      leafEntry s₂.mem root (v * 4096) < 0x200000) :
    childView (forkDone s c root s₂) c v
      = if leafEntry s₂.mem root (v * 4096) % 2 = 1 then
          { pn := (leafEntry s₂.mem root (v * 4096) / 4096 : Nat)
            pa := leafEntry s₂.mem root (v * 4096) / 4096 * 4096
            perm := leafEntry s₂.mem root (v * 4096) % 4096 }
        else { pn := -1, pa := 2 ^ 64 - 1, perm := 0 } := by
  unfold childView
  rw [forkDone_child hne h.processes]
  exact h.tree.trees.lookup_page h.tree.root hlow

section

variable (h : Whole s c root 768 k P s₂) (hc : Copying s c root 768 P role s₂)
  (hr : ForkReady s) (hne : (c : Int) ≠ s.current)

include h hc hr hne

/-- What stands for a page that is mapped. -/
theorem Whole.child_page (hv : v < 768) (hodd : forkEntry s v % 2 = 1) :
    ∃ e, e = leafEntry s₂.mem root (v * 4096)
      ∧ childView (forkDone s c root s₂) c v
        = ⟨(e / 4096 : Nat), e / 4096 * 4096, forkEntry s v % 4096⟩
      ∧ CopiedEntry P s s₂ c (forkEntry s v) e := by
  have hdone := h.done v hv
  obtain ⟨hlt, -⟩ := hr.entry hv hodd
  obtain ⟨e, he⟩ : ∃ e, e = leafEntry s₂.mem root (v * 4096) := ⟨_, rfl⟩
  rw [← he] at hdone
  have hshape : e < 0x200000 ∧ e % 4096 = forkEntry s v % 4096 := by
    unfold CopiedEntry at hdone
    rw [if_pos hodd] at hdone
    split at hdone
    · exact ⟨hdone.1, hdone.2.1⟩
    · rw [hdone]
      exact ⟨hlt, rfl⟩
  refine ⟨e, he, ?_, hdone⟩
  rw [hc.child_view hne v (by rw [← he]; exact fun _ => hshape.1), ← he,
    if_pos (by omega), hshape.2]

/-- With nothing left out, the child is a copy. -/
theorem Whole.copy : ForkCopy s c (forkDone s c root s₂) := by
  have hview : ∀ v < 768, MapsPage s v → forkView s v
      = ⟨(forkEntry s v / 4096 : Nat), forkEntry s v / 4096 * 4096,
          forkEntry s v % 4096⟩ := by
    intro v hv hm
    rw [hr.view_eq hv, if_pos ((hr.maps_iff hv).mp hm)]
  have hpar := forkDone_parent root hne hc.processes
  refine ⟨fun v hv => ?_, fun v hv hm i hi => ?_, fun v hv hm ho => ?_,
    fun v w hv hw hvw hmv hmw hov how => ?_, fun v hv hm ho => ?_, fun va => ?_,
    fun pn hp => ⟨hc.info hp, fun x hx => hc.keep (hx ▸ hp)⟩, rfl, ⟨?_, ?_⟩, ?_⟩
  · by_cases hodd : forkEntry s v % 2 = 1
    · obtain ⟨e, -, hchild, -⟩ := h.child_page hc hr hne hv hodd
      rw [hchild, hview v hv ((hr.maps_iff hv).mpr hodd)]
      refine ⟨⟨fun hx => absurd hx ?_, fun hx => absurd hx ?_⟩, rfl⟩
      · dsimp only
        omega
      · dsimp only
        omega
    · have hdone := h.done v hv
      unfold CopiedEntry at hdone
      rw [if_neg hodd] at hdone
      rw [hc.child_view hne v (by rw [hdone]; decide), hdone, hr.view_eq hv, if_neg hodd]
      exact ⟨Iff.rfl, rfl⟩
  · have hodd := (hr.maps_iff hv).mp hm
    obtain ⟨e, -, hchild, hcop⟩ := h.child_page hc hr hne hv hodd
    rw [hchild, hview v hv hm]
    unfold CopiedEntry at hcop
    rw [if_pos hodd] at hcop
    split at hcop
    · exact hcop.2.2.bytes i hi
    · rw [hcop]
      refine hc.keep ?_
      rw [show (forkEntry s v / 4096 * 4096 + i) / 4096 = forkEntry s v / 4096 by omega]
      exact (hr.entry hv hodd).2
  · have hodd := (hr.maps_iff hv).mp hm
    obtain ⟨e, -, hchild, hcop⟩ := h.child_page hc hr hne hv hodd
    unfold CopiedEntry at hcop
    rw [if_pos hodd, if_pos ((hr.owns_iff hv hodd).mp ho)] at hcop
    rw [hchild]
    exact ⟨hcop.2.2.free, hcop.2.2.own⟩
  · have hoddv := (hr.maps_iff hv).mp hmv
    have hoddw := (hr.maps_iff hw).mp hmw
    obtain ⟨e, he, hchild, -⟩ := h.child_page hc hr hne hv hoddv
    obtain ⟨e', he', hchild', -⟩ := h.child_page hc hr hne hw hoddw
    have hapart := h.apart v w hv hw hvw hoddv hoddw ((hr.owns_iff hv hoddv).mp hov)
      ((hr.owns_iff hw hoddw).mp how)
    rw [← he, ← he'] at hapart
    rw [hchild, hchild']
    exact fun heq => hapart (Int.ofNat_inj.mp heq)
  · have hodd := (hr.maps_iff hv).mp hm
    obtain ⟨e, -, hchild, hcop⟩ := h.child_page hc hr hne hv hodd
    unfold CopiedEntry at hcop
    rw [if_pos hodd, if_neg fun hx => ho ((hr.owns_iff hv hodd).mpr hx)] at hcop
    rw [hchild, hview v hv hm, hcop]
  · rw [hpar]
    exact hr.lookup_eq (fun x hx => hc.keep hx) va
  · rw [hpar]
  · rw [forkDone_child hne hc.processes]
  · rw [forkDone_child hne hc.processes]

end

-- ==== all or nothing

/-- `-1` is returned, and nothing else is different in the process table
and in `pageinfo`. -/
def ForkFails (s s' : KState) : Prop :=
  s'.cur.registers.rax = reg64 (-1) ∧ s'.pageinfo = s.pageinfo
    ∧ s'.current = s.current
    ∧ s'.processes = (s.updProc s.current fun p =>
        { p with registers := { p.registers with rax := reg64 (-1) } }).processes

/-- The call returns a child that is a copy, or `-1` and nothing
happened. -/
def AllOrNothing (s : KState) : Prop :=
  ∃ s', sysFork s = (.ok (), s')
    ∧ (ForkFails s s' ∨ ∃ c : Nat, freeSlot s = some c ∧ ForkCopy s c s')

theorem forkRefused_fails (s : KState) : ForkFails s (forkRefused s) := by
  refine ⟨?_, rfl, rfl, rfl⟩
  show ((s.updProc s.current _).processes s.current).registers.rax = _
  rw [KState.updProc_same]

/-- Too few pages for everything, but one for the root: a panic, or a
child that lacks a page. -/
theorem ForkReady.not_whole (hr : ForkReady s) (hslot : freeSlot s = some c)
    (hpos : freePages s ≠ 0) (hshort : freePages s < forkCost s) : ¬ AllOrNothing s := by
  intro ⟨s', hok, hend⟩
  have hne := hr.slot_ne hslot
  obtain ⟨h1, h16, -⟩ := freeSlot_some hslot
  rw [← length_freeQueue] at hpos hshort
  rcases hr.run hslot with ⟨hnil, -⟩ | ⟨root, -, -, ⟨P, role, s₂, -, hwh, -⟩ | ⟨-, hbad⟩⟩
  · exact hpos (List.length_eq_zero_iff.mpr hnil)
  · have henough := hwh.took.enough
    change forkCost s ≤ (freeQueue s).length at henough
    omega
  rcases hbad with ⟨t, hpanic⟩ | ⟨P, role, s₂, w, hcop, hw, hodd, hzero, hrun⟩
  · rw [hpanic] at hok
    cases hok
  rw [hrun] at hok
  cases hok
  rcases hend with ⟨hrax, -⟩ | ⟨c', hslot', hcopy⟩
  · rw [forkDone_parent _ hne hcop.processes] at hrax
    change reg64 c = reg64 (-1) at hrax
    unfold reg64 at hrax
    omega
  · -- the page left out is mapped in the parent
    rw [hslot] at hslot'
    cases hslot'
    have hchild := hcop.child_view hne w (by rw [hzero]; decide)
    rw [hzero, if_neg (by decide)] at hchild
    have hm := ((hcopy.maps w hw).1).mp (by rw [hchild])
    exact (hr.maps_iff hw).mpr hodd hm

/-- With pages for everything, a copy. -/
theorem ForkReady.whole (hr : ForkReady s) (hc : freeSlot s = some c)
    (henough : forkCost s ≤ freePages s) :
    ∃ s', sysFork s = (.ok (), s') ∧ ForkCopy s c s' := by
  have hne := hr.slot_ne hc
  rw [← length_freeQueue] at henough
  rcases hr.run hc with ⟨hnil, -⟩ | ⟨root, -, -, ⟨P, role, s₂, hcop, hwh, hrun⟩ | ⟨hshort, -⟩⟩
  · rw [hnil] at henough
    unfold forkCost at henough
    exact absurd henough (by rw [List.length_nil]; omega)
  · exact ⟨_, hrun, hwh.copy hcop hr hne⟩
  · omega

/-- Without a slot, or without a page for the root, `-1`. -/
theorem ForkReady.refused (hr : ForkReady s) (h : freeSlot s = none ∨ freePages s = 0) :
    sysFork s = (.ok (), forkRefused s) := by
  rcases hslot : freeSlot s with - | c
  · unfold sysFork
    rw [get_bind, hslot]
    rfl
  · have hzero : freePages s = 0 := h.resolve_left (by rw [hslot]; exact Option.some_ne_none c)
    rw [← length_freeQueue] at hzero
    rcases hr.run hslot with ⟨-, hrun⟩ | ⟨root, -, hpages, -⟩
    · exact hrun
    · exact absurd (List.length_eq_zero_iff.mp hzero) hpages

/-- With a free slot and as many free pages as `forkCost` says, `sys_fork`
makes a copy of the process. -/
theorem fork_copies (hr : ForkReady s) (hc : freeSlot s = some c)
    (henough : forkCost s ≤ freePages s) :
    ∃ s', sysFork s = (.ok (), s') ∧ ForkCopy s c s' :=
  hr.whole hc henough

/-- `sys_fork` is all or nothing exactly when there is no slot, or no page
for the root, or pages for everything. -/
theorem fork_whole_iff (hr : ForkReady s) :
    AllOrNothing s ↔ freeSlot s = none ∨ freePages s = 0 ∨ forkCost s ≤ freePages s := by
  constructor
  · intro hall
    rcases hslot : freeSlot s with - | c
    · exact .inl rfl
    by_cases hzero : freePages s = 0
    · exact .inr (.inl hzero)
    · refine .inr (.inr ?_)
      by_contra hshort
      exact hr.not_whole hslot hzero (by omega) hall
  · intro hcond
    by_cases hnone : freeSlot s = none ∨ freePages s = 0
    · exact ⟨_, hr.refused hnone, .inl (forkRefused_fails s)⟩
    · have hcost : forkCost s ≤ freePages s := by
        rcases hcond with hx | hx | hx
        · exact absurd (.inl hx) hnone
        · exact absurd (.inr hx) hnone
        · exact hx
      rcases hslot : freeSlot s with - | c
      · exact absurd (.inl hslot) hnone
      · obtain ⟨s', hrun, hcopy⟩ := hr.whole hslot hcost
        exact ⟨s', hrun, .inr ⟨c, hslot, hcopy⟩⟩

end Call

-- ==== a small parent

/-- Process 1, its page table in pages 1 and 4 to 7, with its own page 2 at
0 and page 3, which is not its own, at 2 MiB. From page 8 on, `n` pages
are free. -/
def twoPages (n : Nat) : KState :=
  { blank with
    mem := store (store (store (store (store (store zero (1 * 4096 + 8 * 0) 8 0x4007)
      (4 * 4096 + 8 * 0) 8 0x5007) (5 * 4096 + 8 * 0) 8 0x6007)
      (5 * 4096 + 8 * 1) 8 0x7007) (6 * 4096 + 8 * 0) 8 0x2007)
      (7 * 4096 + 8 * 0) 8 0x3007
    pageinfo := fun pn =>
      if pn = 1 ∨ pn = 2 ∨ (4 ≤ pn ∧ pn < 8) then ⟨1, 1⟩
      else if 8 ≤ pn ∧ pn < 8 + n then ⟨0, 0⟩ else ⟨-1, 1⟩
    pageno := 8
    processes := fun i =>
      { Proc.zero i with
        pagetable := 0x1000
        state := if i = 1 then .runnable else .free }
    current := 1 }

section TwoPages

variable {n : Nat}

theorem twoPages_getEntry (hi : i < 512) :
    getEntry (twoPages n).mem (t * 4096) i
      = if t = 7 ∧ i = 0 then 0x3007 else if t = 6 ∧ i = 0 then 0x2007
        else if t = 5 ∧ i = 1 then 0x7007 else if t = 5 ∧ i = 0 then 0x6007
        else if t = 4 ∧ i = 0 then 0x5007 else if t = 1 ∧ i = 0 then 0x4007 else 0 := by
  have hz : getEntry zero (t * 4096) i = 0 := load_eq_zero.mpr fun _ _ _ => rfl
  unfold twoPages
  rw [getEntry_store (by decide) hi (by decide), getEntry_store (by decide) hi (by decide),
    getEntry_store (by decide) hi (by decide), getEntry_store (by decide) hi (by decide),
    getEntry_store (by decide) hi (by decide), getEntry_store (by decide) hi (by decide), hz]

/-- The places of its tables. -/
def twoRoles : Roles := fun pn =>
  if pn = 1 then some ⟨0, 0, 0⟩ else if pn = 4 then some ⟨0, 1, 0⟩
  else if pn = 5 then some ⟨0, 2, 0⟩ else if pn = 6 then some ⟨0, 3, 0⟩
  else if pn = 7 then some ⟨0, 3, 1⟩ else none

theorem twoRoles_cases (hr : twoRoles pn = some p) :
    (pn = 1 ∧ p = ⟨0, 0, 0⟩) ∨ (pn = 4 ∧ p = ⟨0, 1, 0⟩) ∨ (pn = 5 ∧ p = ⟨0, 2, 0⟩)
      ∨ (pn = 6 ∧ p = ⟨0, 3, 0⟩) ∨ (pn = 7 ∧ p = ⟨0, 3, 1⟩) := by
  unfold twoRoles at hr
  split_ifs at hr with h1 h2 h3 h4 h5 <;> cases hr <;> simp [*]

theorem twoPages_tree : Tree (fun _ => True) Owned 1 twoRoles (twoPages n) := by
  refine ⟨trivial, ⟨fun pn o l pre hr hl i hi => ?_⟩, rfl, fun pn p hr => ?_,
    fun pn p hr _ => ?_⟩
  · rw [twoPages_getEntry hi]
    rcases twoRoles_cases hr with ⟨rfl, hp⟩ | ⟨rfl, hp⟩ | ⟨rfl, hp⟩ | ⟨rfl, hp⟩ | ⟨rfl, hp⟩
    all_goals cases hp
    · by_cases h0 : i = 0
      · subst h0
        exact .inr ⟨4, rfl, rfl⟩
      · exact .inl (by simp [h0])
    · by_cases h0 : i = 0
      · subst h0
        exact .inr ⟨5, rfl, rfl⟩
      · exact .inl (by simp [h0])
    · by_cases h0 : i = 0
      · subst h0
        exact .inr ⟨6, rfl, rfl⟩
      · by_cases h1 : i = 1
        · subst h1
          exact .inr ⟨7, rfl, rfl⟩
        · exact .inl (by simp [h0, h1])
    · exact absurd hl (Nat.lt_irrefl 3)
    · exact absurd hl (Nat.lt_irrefl 3)
  · show ((twoPages n).pageinfo pn).owner ≠ 0
    rcases twoRoles_cases hr with ⟨rfl, -⟩ | ⟨rfl, -⟩ | ⟨rfl, -⟩ | ⟨rfl, -⟩ | ⟨rfl, -⟩
    all_goals exact fun hx => by cases hx
  · rcases twoRoles_cases hr with ⟨rfl, -⟩ | ⟨rfl, -⟩ | ⟨rfl, -⟩ | ⟨rfl, -⟩ | ⟨rfl, -⟩
    all_goals decide

theorem twoPages_leafEntry (hv : v < 768) :
    leafEntry (twoPages n).mem 1 (v * 4096)
      = if v = 0 then 0x2007 else if v = 512 then 0x3007 else 0 := by
  have h0 : pageindex (v * 4096) 0 = 0 := by rw [pageindex_zero]; omega
  have h1 : pageindex (v * 4096) 1 = 0 := by rw [pageindex_one]; omega
  have h2 : pageindex (v * 4096) 2 = v / 512 := by rw [pageindex_two]; omega
  have h3 : pageindex (v * 4096) 3 = v % 512 := by rw [pageindex_three]; omega
  have f1 : follow (twoPages n).mem 1 0 = some 4 := by
    unfold follow
    rw [twoPages_getEntry (by decide)]
    rfl
  have f2 : follow (twoPages n).mem 4 0 = some 5 := by
    unfold follow
    rw [twoPages_getEntry (by decide)]
    rfl
  have f3 : follow (twoPages n).mem 5 (v / 512) = some (6 + v / 512) := by
    have hdiv : v / 512 = 0 ∨ v / 512 = 1 := by omega
    unfold follow
    rw [twoPages_getEntry (by omega)]
    rcases hdiv with hd | hd
    · rw [hd]
      rfl
    · rw [hd]
      rfl
  unfold leafEntry leafTable
  rw [h0, h1, h2, h3, f1, Option.bind_some, f2, Option.bind_some, f3]
  dsimp only
  rw [twoPages_getEntry (Nat.mod_lt _ (by decide))]
  grind

theorem twoPages_view (hv : v < 768) :
    forkView (twoPages n) v = if v = 0 then ⟨2, 0x2000, 7⟩
      else if v = 512 then ⟨3, 0x3000, 7⟩ else ⟨-1, 2 ^ 64 - 1, 0⟩ := by
  have hent := twoPages_leafEntry (n := n) hv
  have htree := twoPages_tree (n := n)
  have hlook := htree.trees.lookup_page htree.root (by rw [hent]; grind)
  rw [hent] at hlook
  refine hlook.trans ?_
  by_cases h0 : v = 0
  · rw [if_pos h0, if_pos h0]
    rfl
  · rw [if_neg h0, if_neg h0]
    by_cases h1 : v = 512
    · rw [if_pos h1, if_pos h1]
      rfl
    · rw [if_neg h1, if_neg h1]
      rfl

theorem twoPages_maps (hv : v < 768) : MapsPage (twoPages n) v ↔ v = 0 ∨ v = 512 := by
  unfold MapsPage
  rw [twoPages_view hv]
  grind

theorem twoPages_ready : ForkReady (twoPages n) := by
  have hpt : (twoPages n).cur.pagetable = 0x1000 := rfl
  have hroot : (twoPages n).cur.pagetable / 4096 = 1 := by rw [hpt]
  refine ⟨⟨twoRoles, hroot ▸ twoPages_tree⟩, by rw [hpt], fun v hv hp => ?_, fun i _ _ => rfl, ?_,
    (by decide : 8 < 512), ?_⟩
  rotate_left
  · exact fun hx => by cases hx
  · show ((twoPages n).pageinfo 0).owner ≠ 0
    unfold twoPages
    simp
  · rw [twoPages_view hv] at hp ⊢
    by_cases h0 : v = 0
    · rw [if_pos h0]
      refine ⟨by decide, ?_⟩
      exact fun hx => by cases hx
    · rw [if_neg h0] at hp ⊢
      by_cases h1 : v = 512
      · rw [if_pos h1]
        refine ⟨by decide, ?_⟩
        show ((twoPages n).pageinfo 3).owner ≠ 0
        unfold twoPages
        simp
      · rw [if_neg h1] at hp
        exact absurd hp (by decide)

/-- Six pages: the root, the copy, three tables, and one for the other
region. -/
theorem twoPages_cost : forkCost (twoPages n) = 6 := by
  have hturn : ∀ v ∈ List.range' 0 768, turnCost (twoPages n) v
      = if v = 0 then 4 else if v = 512 then 1 else 0 := by
    intro v hv
    have hv : v < 768 := by
      rw [List.mem_range'_1] at hv
      omega
    have hmaps : ∀ w < v, (MapsPage (twoPages n) w ↔ w = 0 ∨ w = 512) :=
      fun w hw => twoPages_maps (by omega)
    unfold turnCost
    by_cases h0 : v = 0
    · subst h0
      have howns : OwnsPage (twoPages n) 0 := by
        unfold OwnsPage
        rw [twoPages_view hv]
        rfl
      rw [if_pos ((twoPages_maps hv).mpr (.inl rfl)), if_pos howns,
        if_pos fun w hw => absurd hw (Nat.not_lt_zero w)]
      rfl
    · rw [if_neg h0]
      by_cases h1 : v = 512
      · subst h1
        have howns : ¬ OwnsPage (twoPages n) 512 := by
          unfold OwnsPage
          rw [twoPages_view hv]
          exact fun hx => by cases hx
        have hfirst : ¬ ∀ w < 512, ¬ MapsPage (twoPages n) w := fun hx =>
          hx 0 (by decide) ((hmaps 0 (by decide)).mpr (.inl rfl))
        rw [if_pos ((twoPages_maps hv).mpr (.inr rfl)), if_neg howns, if_neg hfirst,
          if_pos fun w hw heq => by omega]
        rfl
      · rw [if_neg fun hm => ((twoPages_maps hv).mp hm).elim h0 h1, if_neg h1]
  unfold forkCost turnsCost
  rw [List.map_congr_left hturn]
  decide +kernel

end TwoPages

/-- With six pages there is a copy. -/
theorem fork_copies_twoPages :
    ∃ s', sysFork (twoPages 6) = (.ok (), s') ∧ ForkCopy (twoPages 6) (2 : Nat) s' := by
  have hslot : freeSlot (twoPages 6) = some 2 := by decide
  refine fork_copies twoPages_ready hslot ?_
  rw [twoPages_cost]
  decide +kernel

/-- So with six it is all; without any it is nothing. -/
theorem fork_whole_twoPages : AllOrNothing (twoPages 6) ∧ AllOrNothing (twoPages 0) := by
  refine ⟨(fork_whole_iff twoPages_ready).mpr (.inr (.inr ?_)),
    (fork_whole_iff twoPages_ready).mpr (.inr (.inl ?_))⟩
  · rw [twoPages_cost]
    decide +kernel
  · decide +kernel

/-- With one page the kernel panics in the middle of the call. With one to
five there is neither a copy nor a `-1`. -/
theorem fork_runs_out :
    (ForkReady (twoPages 1) ∧ (sysFork (twoPages 1)).1.toOption = none)
      ∧ ∀ n, 1 ≤ n → n ≤ 5 → ForkReady (twoPages n) ∧ ¬ AllOrNothing (twoPages n) := by
  refine ⟨⟨twoPages_ready, by decide +kernel⟩, fun n h1 h5 => ⟨twoPages_ready, ?_⟩⟩
  have hpages : ∀ n, n < 6 → freePages (twoPages n) = n := by decide +kernel
  have hslot : freeSlot (twoPages n) = some 2 := rfl
  refine twoPages_ready.not_whole hslot ?_ ?_
  · rw [hpages n (by omega)]
    omega
  · rw [hpages n (by omega), twoPages_cost]
    omega

end RojocOS.Kernel
