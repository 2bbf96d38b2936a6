/-
The way into the kernel and out of it, when the invariant holds.

`exception` reaches the handler: the stack is mapped, `set_pagetable` and
`check_virtual_memory` find nothing, and a keyboard on which nothing is
typed only counts the poll (`KInv.exception_eq`). Behind the handler a
process with the kernel in its table is run (`KInv.resume_eq`,
`KInv.schedule_eq`). And what a process may write itself includes the
pages of its program (`Trees.userWalk_eq`) and nothing that is not its
own (`KInv.userByte`).
-/
import RojocOS.Kernel.Proofs.Boot
import RojocOS.Kernel.Proofs.Keyboard

namespace RojocOS.Kernel

open ByteMap Prog

variable {E : KEnv} {G O O' : Prop} {role role' : Roles} {used used' : List Blk}
  {s s' s'' : KState} {k pn pt : Nat} {regs : Registers}
variable {f : Proc → Proc} {i o pid : Int} {t : KState} {u : Unit} {m : ByteMap}
  {root va x : Nat}

-- ==== entries

section

variable (h : KInv E G O role used s)

include h

/-- Nothing that the invariant is about changed. -/
theorem KInv.of_entries (hm : SameMach s s') (hc : 1 ≤ s'.current ∧ s'.current < 16)
    (hp : ∀ i, SameRole (s.processes i) (s'.processes i))
    (hfd : ∀ i : Int, 0 ≤ i → i < 16 → FdOk used s.mem (s'.processes i).fdList) :
    KInv E G O role used s' := by
  have hlive : ∀ i, s'.Live i → s.Live i := by
    intro i hi
    unfold KState.Live at hi
    rw [(hp i).state] at hi
    exact hi
  refine ⟨hm.minv h.mach, ⟨fun i h0 h16 => ?_, ?_, hc⟩, ?_, fun i hi => ?_, fun i h0 h16 => ?_,
    fun hO pn hpn hown => ?_, fun i h0 h16 => ?_, h.console, ?_⟩
  · exact (hp i).pid.trans (h.numbered.pids i h0 h16)
  · rw [(hp 0).state]
    exact h.numbered.zero
  · exact (hp 0).state.trans h.zero
  · have h1 := (hlive i hi).1
    exact (h.live i (hlive i hi)).frame h.mach (hm.frame (S := fun _ => False)) (by omega)
      (fun hF => hF) (hp i)
  · rw [(hp i).pagetable]
    exact h.table i h0 h16
  · rw [hm.pageinfo] at hown ⊢
    rw [(hp _).state]
    exact h.owner hO pn hpn hown
  · rw [hm.mem]
    exact hfd i h0 h16
  · unfold HeapBare
    rw [hm.heapPages]
    exact h.bare

/-- The process table is not touched at all. -/
theorem KInv.of_same (hm : SameMach s s')
    (hc : s'.current = s.current) (hp : s'.processes = s.processes) :
    KInv E G O role used s' :=
  h.of_entries hm (hc.symm ▸ h.numbered.current) (fun _ => hp ▸ SameRole.refl _)
    (hp.symm ▸ h.fd)

theorem KInv.idle (hi : Idle s s') : KInv E G O role used s' := by
  obtain ⟨_, _, _, _, _, rfl⟩ := hi.exists_eq
  exact h.of_same ⟨rfl, rfl, rfl, rfl, rfl⟩ rfl rfl

/-- The running process changed, but not in what the others see. -/
theorem KInv.own (hf : ∀ p, SameRole p (f p))
    (hfd : FdOk used s.mem s.cur.fdList → FdOk used s.mem (f s.cur).fdList) :
    KInv E G O role used (s.updProc s.current f) := by
  have hentry : ∀ i, (s.updProc s.current f).processes i
      = if i = s.current then f (s.processes i) else s.processes i := fun _ => rfl
  refine h.of_entries ⟨rfl, rfl, rfl, rfl, rfl⟩ h.numbered.current (fun i => ?_)
    fun i h0 h16 => ?_
  · rw [hentry]
    by_cases hi : i = s.current
    · rw [if_pos hi]
      exact hf _
    · rw [if_neg hi]
      exact SameRole.refl _
  · rw [hentry]
    by_cases hi : i = s.current
    · subst hi
      rw [if_pos rfl]
      exact hfd (h.fd _ h0 h16)
    · rw [if_neg hi]
      exact h.fd i h0 h16

end

/-- Something of the processes changed that the invariant does not look
at: registers, directories, codes. -/
structure Minor (s s' : KState) : Prop where
  mach : SameMach s s'
  current : s'.current = s.current
  role : ∀ i, SameRole (s.processes i) (s'.processes i)
  fd : ∀ i, (s'.processes i).fdList = (s.processes i).fdList

theorem Minor.of_same (hm : SameMach s s') (hc : s'.current = s.current)
    (hp : s'.processes = s.processes) : Minor s s' :=
  ⟨hm, hc, fun _ => hp ▸ SameRole.refl _, fun _ => by rw [hp]⟩

theorem Minor.refl (s : KState) : Minor s s :=
  Minor.of_same ⟨rfl, rfl, rfl, rfl, rfl⟩ rfl rfl

theorem Minor.trans (h : Minor s s') (h' : Minor s' s'') : Minor s s'' := by
  obtain ⟨⟨a1, a2, a3, a4, a5⟩, hc, hr, hf⟩ := h
  obtain ⟨⟨b1, b2, b3, b4, b5⟩, hc', hr', hf'⟩ := h'
  exact ⟨⟨b1.trans a1, b2.trans a2, b3.trans a3, b4.trans a4, b5.trans a5⟩, hc'.trans hc,
    fun i => (hr i).trans (hr' i), fun i => (hf' i).trans (hf i)⟩

theorem Minor.own (hf : ∀ p, SameRole p (f p))
    (hfd : ∀ p, (f p).fdList = p.fdList) : Minor s (s.updProc s.current f) := by
  refine ⟨⟨rfl, rfl, rfl, rfl, rfl⟩, rfl, fun i => ?_, fun i => ?_⟩
  · by_cases hi : i = s.current
    · subst hi
      rw [s.updProc_same]
      exact hf _
    · rw [s.updProc_other f hi]
      exact SameRole.refl _
  · by_cases hi : i = s.current
    · subst hi
      rw [s.updProc_same]
      exact hfd _
    · rw [s.updProc_other f hi]

theorem KInv.minor (h : KInv E G O role used s) (hm : Minor s s') :
    KInv E G O role used s' :=
  h.of_entries hm.mach (hm.current.symm ▸ h.numbered.current) hm.role
    fun i h0 h16 => (hm.fd i).symm ▸ h.fd i h0 h16

theorem KInv.saved (h : KInv E G O role used s) (regs : Registers) :
    KInv E G O role used (saved regs s) :=
  h.own (fun _ => ⟨rfl, rfl, rfl, rfl, rfl, rfl⟩) fun hfd => hfd

theorem KInv.rax (h : KInv E G O role used s) (v : Nat) :
    KInv E G O role used (setRax v s).2 :=
  h.own (f := fun p => { p with registers := { p.registers with rax := v } })
    (fun _ => ⟨rfl, rfl, rfl, rfl, rfl, rfl⟩) fun hfd => hfd

-- ==== the way in

/-- Nothing is typed. -/
def Silent (E : KEnv) : Prop := ∀ i, E.keyboard i = -1

theorem patient_silent : Silent patientKEnv := fun _ => rfl

theorem Silent.push (h : Silent E) (s : KState) :
    checkKeyboardPush E s = (.ok (), { s with polls := s.polls + 1 }) := by
  refine push_idle (fun i => ?_) ?_
  · rw [h i]
    decide
  · rw [h]
    decide

/-- The state in which a handler starts. -/
def trapped (regs : Registers) (s : KState) : KState :=
  { saved regs s with polls := s.polls + 1 }

theorem trapped_cur (regs : Registers) (s : KState) :
    (trapped regs s).cur = { s.cur with registers := regs } :=
  s.updProc_same s.current fun p => { p with registers := regs }

theorem trapped_other (regs : Registers) (s : KState) (hi : i ≠ s.current) :
    (Kernel.trapped regs s).processes i = s.processes i :=
  s.updProc_other (fun p => { p with registers := regs }) hi

theorem setRax_cur (v : Nat) (s : KState) : (setRax v s).2.cur
    = { s.cur with registers := { s.cur.registers with rax := v } } :=
  s.updProc_same s.current fun p => { p with registers := { p.registers with rax := v } }

theorem setRax_other (v : Nat) (s : KState) (hi : i ≠ s.current) :
    (setRax v s).2.processes i = s.processes i :=
  s.updProc_other (fun p => { p with registers := { p.registers with rax := v } }) hi

theorem KInv.trapped (h : KInv E G O role used s) (regs : Registers) :
    KInv E G O role used (trapped regs s) :=
  (h.saved regs).of_same ⟨rfl, rfl, rfl, rfl, rfl⟩ rfl rfl

/-- A live process has the kernel's stack in its table. -/
theorem KInv.stack (h : KInv E True O role used s) (hlive : s.Live s.current) :
    (virtualMemoryLookup s.mem s.cur.pagetable 0x9F000).pa = 0x9F000 := by
  obtain ⟨root, hpt, hsp, hfit⟩ := (h.live _ hlive).space
  have hk := (hfit trivial).kernel.idMap (.inr rfl)
  rw [KState.cur, hpt]
  exact h.mach.tables.lookup_id hsp.isRoot (by decide) hk

/-- An exception gets to its handler. -/
theorem KInv.exception_eq (h : KInv E True True role used s) (hq : Silent E)
    (hlive : s.Live s.current) (regs : Registers) :
    exception E regs s = dispatch E (trapOf regs.intno) (Kernel.trapped regs s) := by
  have hin : enter regs s = (.ok (), Kernel.saved regs s) := by
    unfold enter
    rw [get_bind, failIf_bind (not_not.mpr (h.stack hlive))]
    rfl
  have hcheck : Prog.when (regs.intno ≠ 14 ∨ regs.err / 4 % 2 = 1) (checkVirtualMemory E)
      (Kernel.saved regs s) = (.ok (), Kernel.saved regs s) := by
    by_cases hc : regs.intno ≠ 14 ∨ regs.err / 4 % 2 = 1
    · rw [when_of hc]
      exact (h.saved regs).check
    · rw [when_of_not hc]
      rfl
  unfold exception
  rw [bind_of_ok hin, bind_of_ok (h.saved regs).mach.setPagetable_kernel,
    bind_of_ok hcheck, bind_of_ok (hq.push _)]
  rfl

-- ==== the way out

/-- `set_pagetable` looks at memory only. -/
theorem setPagetable_mem (hm : t.mem = s.mem)
    (h : setPagetable E pt s = (.ok u, s')) : setPagetable E pt t = (.ok (), t) := by
  obtain ⟨ha, h2⟩ := assert_bind_ok h
  rw [get_bind] at h2
  obtain ⟨hb, h6⟩ := assert_bind_ok h2
  obtain ⟨hc, h8⟩ := assert_bind_ok h6
  obtain ⟨hd, h10⟩ := assert_bind_ok h8
  obtain ⟨he, -⟩ := assert_ok.mp h10
  rw [← hm] at hb hc hd he
  unfold setPagetable
  rw [assert_bind ha, get_bind, assert_bind hb, assert_bind hc,
    assert_bind hd, assert_of he]

/-- A runnable process can be run if `set_pagetable` takes its table. -/
theorem run_of_pagetable (hrun : (s.processes pid).state = .runnable)
    (hset : setPagetable E (s.processes pid).pagetable s = (.ok u, s')) :
    run E pid s = (.ok (), { s with current := pid }) := by
  unfold run
  rw [get_bind, assert_bind hrun, bind_of_ok (x := Prog.modify _) rfl]
  exact setPagetable_mem (s := s) rfl hset

theorem resume_of_pagetable (hrun : s.cur.state = .runnable)
    (hset : setPagetable E s.cur.pagetable s = (.ok u, s')) : resume E s = (.ok (), s) := by
  unfold resume
  rw [get_bind, if_pos hrun]
  exact run_of_pagetable hrun hset

section

variable (h : KInv E True O role used s)

include h

/-- A process can be run as long as its table is what it was. -/
theorem KInv.run_of_mem (hlive : s.Live pid) (hm : t.mem = s.mem)
    (hpt : (t.processes pid).pagetable = (s.processes pid).pagetable)
    (hrun : (t.processes pid).state = .runnable) :
    run E pid t = (.ok (), { t with current := pid }) := by
  obtain ⟨root, hroot, hsp, hfit⟩ := (h.live pid hlive).space
  have hset := h.mach.setPagetable_kmap hsp.isRoot (hfit trivial).kernel
  rw [← hroot, ← hpt] at hset
  exact run_of_pagetable hrun (setPagetable_mem hm hset)

theorem KInv.run_eq (h1 : 1 ≤ pid)
    (h16 : pid < 16) (hrun : (s.processes pid).state = .runnable) :
    run E pid s = (.ok (), { s with current := pid }) :=
  h.run_of_mem ⟨h1, h16, .inl hrun⟩ rfl rfl hrun

/-- A runnable process goes on. -/
theorem KInv.resume_of_mem (hc : t.current = s.current) (hlive : s.Live s.current)
    (hm : t.mem = s.mem)
    (hpt : t.cur.pagetable = s.cur.pagetable) (hrun : t.cur.state = .runnable) :
    resume E t = (.ok (), t) := by
  unfold resume
  rw [get_bind, if_pos hrun]
  refine h.run_of_mem (hc.symm ▸ hlive) hm ?_ hrun
  unfold KState.cur at hpt
  rw [hpt, hc]

theorem KInv.resume_eq (hrun : s.cur.state = .runnable) : resume E s = (.ok (), s) :=
  h.resume_of_mem rfl ⟨h.numbered.current.1, h.numbered.current.2, .inl hrun⟩ rfl rfl hrun

end

/-- A system call after which the process goes on. -/
theorem KInv.call_eq {x : KM Unit} (h : KInv E True True role used s) (hq : Silent E)
    (hlive : s.Live s.current) (hx : dispatch E (trapOf regs.intno) = x >>= fun _ => resume E)
    (hok : x (Kernel.trapped regs s) = (.ok (), t)) (ht : KInv E True O' role' used' t)
    (hrun : t.cur.state = .runnable) : exception E regs s = (.ok (), t) := by
  rw [h.exception_eq hq hlive, hx, bind_of_ok hok]
  exact ht.resume_eq hrun

/-- The scheduler gets to the next runnable process. -/
theorem KInv.scheduleLoop_eq (hq : Silent E) : ∀ {n : Nat} (pid : Int) {s : KState},
    KInv E True O role used s → k < n →
    (∀ i : Nat, i < k → (s.processes ((pid + 1 + i) % 16)).state ≠ .runnable) →
    (s.processes ((pid + 1 + k) % 16)).state = .runnable →
    scheduleLoop E n pid s
      = (.ok (), { s with current := (pid + 1 + k) % 16, polls := s.polls + k }) := by
  induction k with
  | zero =>
    intro n pid s h hn _ hrun
    obtain ⟨n, rfl⟩ : ∃ m, n = m + 1 := ⟨n - 1, by omega⟩
    have hnext : pid + 1 + (0 : Nat) = pid + 1 := by omega
    rw [hnext] at hrun ⊢
    have hne : (pid + 1) % 16 ≠ 0 := fun h0 => by
      rw [h0, h.zero] at hrun
      cases hrun
    rw [scheduleLoop, get_bind, if_pos hrun]
    exact h.run_eq (by omega) (by omega) hrun
  | succ k ih =>
    intro n pid s h hn hnot hrun
    obtain ⟨n, rfl⟩ : ∃ m, n = m + 1 := ⟨n - 1, by omega⟩
    have hfirst : (s.processes ((pid + 1) % 16)).state ≠ .runnable := by
      have h0 := hnot 0 (by omega)
      have hnext : pid + 1 + (0 : Nat) = pid + 1 := by omega
      rw [hnext] at h0
      exact h0
    have hnext : ∀ i : Nat, ((pid + 1) % 16 + 1 + i) % 16 = (pid + 1 + (i + 1 : Nat)) % 16 := by
      intro i
      omega
    have h' : KInv E True O role used { s with polls := s.polls + 1 } :=
      h.of_same ⟨rfl, rfl, rfl, rfl, rfl⟩ rfl rfl
    rw [scheduleLoop, get_bind, if_neg hfirst,
      bind_of_ok (hq.push s), ih _ h' (by omega) (fun i hi => ?_) ?_, hnext k]
    · dsimp only
      rw [Nat.add_assoc, Nat.add_comm 1 k]
    · rw [hnext k]
      exact hrun
    · rw [hnext i]
      exact hnot (i + 1) (by omega)

-- ==== user mode

/-- The processor's walk ends on the page of the entry. -/
theorem Trees.userWalk_eq (ht : Trees m role)
    (hr : role root = some ⟨o, 0, 0⟩) (he : leafEntry m root va = pn * 4096 + 7) :
    userWalk m va 4 0 (root * 4096) = some (pn * 4096 + va % 4096) := by
  have hstep : ∀ {n level t c : Nat}, getEntry m (t * 4096) (pageindex va level) = c * 4096 + 7 →
      userWalk m va (n + 1) level (t * 4096) = userWalk m va n (level + 1) (c * 4096) := by
    intro n level t c hc
    have hflags : getEntry m (t * 4096) (pageindex va level) % 8 = 7 := by
      rw [hc]
      omega
    rw [userWalk, if_pos hflags, hc, pteAddr_page c (by decide)]
  unfold leafEntry at he
  rcases h3 : leafTable m root va with - | t3
  · rw [h3] at he
    exact absurd he (by dsimp only; omega)
  rw [h3] at he
  obtain ⟨t1, h1, h3⟩ := Option.bind_eq_some_iff.mp h3
  obtain ⟨t2, h2, h3⟩ := Option.bind_eq_some_iff.mp h3
  obtain ⟨he1, hr1⟩ := ht.follow_some hr (by decide) (pageindex_lt _ _) h1
  obtain ⟨he2, hr2⟩ := ht.follow_some hr1 (by decide) (pageindex_lt _ _) h2
  obtain ⟨he3, -⟩ := ht.follow_some hr2 (by decide) (pageindex_lt _ _) h3
  rw [hstep he1, hstep he2, hstep he3, hstep he]
  rfl

/-- And only there: a walk that comes through has the three flags in the
last-level entry. -/
theorem Trees.userWalk_some (ht : Trees m role)
    (hr : role root = some ⟨o, 0, 0⟩) (h : userWalk m va 4 0 (root * 4096) = some x) :
    leafEntry m root va % 8 = 7 ∧ x = pteAddr (leafEntry m root va) + va % 4096 := by
  have hstep : ∀ {n level t l pre : Nat}, role t = some ⟨o, l, pre⟩ → l < 3 →
      userWalk m va (n + 1) level (t * 4096) = some x →
      ∃ c, follow m t (pageindex va level) = some c
        ∧ role c = some ⟨o, l + 1, pre * 512 + pageindex va level⟩
        ∧ userWalk m va n (level + 1) (c * 4096) = some x := by
    intro n level t l pre hrt hl hw
    rw [userWalk] at hw
    by_cases hf : getEntry m (t * 4096) (pageindex va level) % 8 = 7
    · rw [if_pos hf] at hw
      rcases ht.upper t o l pre hrt hl _ (pageindex_lt va level) with h0 | ⟨c, hc, hrc⟩
      · rw [h0] at hf
        exact absurd hf (by decide)
      · rw [hc, pteAddr_page c (by decide)] at hw
        refine ⟨c, ?_, hrc, hw⟩
        unfold follow
        rw [if_neg (by omega), hc, show (c * 4096 + 7) / 4096 = c by omega]
    · rw [if_neg hf] at hw
      cases hw
  obtain ⟨t1, h1, hr1, h⟩ := hstep hr (by decide) h
  obtain ⟨t2, h2, hr2, h⟩ := hstep hr1 (by decide) h
  obtain ⟨t3, h3, -, h⟩ := hstep hr2 (by decide) h
  have hleaf : leafTable m root va = some t3 := by
    unfold leafTable
    rw [h1, Option.bind_some, h2, Option.bind_some, h3]
  unfold leafEntry
  rw [hleaf]
  rw [userWalk] at h
  by_cases hf : getEntry m (t3 * 4096) (pageindex va 3) % 8 = 7
  · rw [if_pos hf] at h
    cases h
    exact ⟨hf, rfl⟩
  · rw [if_neg hf] at h
    cases h

/-- What a process can write is its own. -/
theorem KInv.userByte (h : KInv E G O role used s) (hlive : s.Live s.current)
    (hx : UserWritable s x) : UserByte role s s.current x := by
  obtain ⟨root, hroot, hsp, -⟩ := (h.live _ hlive).space
  obtain ⟨va, hva⟩ := hx
  rw [KState.cur, hroot] at hva
  obtain ⟨hflags, rfl⟩ := h.mach.tables.userWalk_some hsp.isRoot hva
  have hpage : (pteAddr (leafEntry s.mem root va) + va % 4096) / 4096
      = leafEntry s.mem root va / 4096 := by
    unfold pteAddr
    omega
  unfold UserByte
  rw [hpage]
  rcases hsp.entry va with h0 | ⟨-, -, hU⟩
  · rw [h0] at hflags
    exact absurd hflags (by decide)
  · exact hU (by omega)

/-- A step in user mode. -/
theorem KInv.user (h : KInv E G O role used s) (hlive : s.Live s.current)
    (hm : ∀ x, m x ≠ s.mem x → UserWritable s x ∧ ¬ E.KernelPage (x / 4096)) :
    KInv E G O role used { s with mem := m } :=
  h.write_user hlive.1 fun x hx => h.userByte hlive (hm x hx).1

/-- Another process goes on. -/
theorem KInv.resumed (h : KInv E G O role used s) (hout : Resumed s s') :
    KInv E G O role used s' ∧ s'.Live s'.current := by
  have hrun := hout.running
  have hrange : 1 ≤ s'.current ∧ s'.current < 16 := by
    rcases hout.who with heq | ⟨h0, h16⟩
    · rw [heq]
      exact h.numbered.current
    · refine ⟨?_, h16⟩
      by_contra hlt
      have h0' : s'.current = 0 := by omega
      rw [h0', h.zero] at hrun
      cases hrun
  obtain ⟨hp, -, hpi, hh, hm⟩ := hout.rest.same
  have hsame : SameMach s s' := by
    refine ⟨hm, hpi, ?_, hh, ?_⟩
    · rw [hout.rest]
    · rw [hout.rest]
  have hp : s'.processes = s.processes := hp
  refine ⟨h.of_entries hsame hrange (fun _ => hp ▸ SameRole.refl _) (hp.symm ▸ h.fd),
    hrange.1, hrange.2, .inl ?_⟩
  rw [hp]
  exact hrun

end RojocOS.Kernel
