/-
Changes of the process table, and the invariant.

A process that blocks, faults or is forgotten changes one entry and nothing
else (`KInv.change`). `process_kill` also gives pages back: the trees of the
process are gone from the roles, and the other owners do not notice
(`MInv.released`). Its wake-up writes to the place the parent gave when it
waited, which is the parent's own as long as the parent lives; that is the
condition of `KInv.processKill`.
-/
import RojocOS.Kernel.Proofs.Enter

namespace RojocOS.Kernel

open ByteMap

variable {E : KEnv} {G O : Prop} {role role' : Roles} {used : List Blk} {s s' : KState}
  {pid c : Int} {a : Nat} {p : Proc}
variable {i o : Int} {pn : Nat}

-- ==== one entry

theorem ProcOk.same (h : ProcOk E G role s i p) (hinv : MInv E role used s)
    (hm : SameMach s s') (h0 : i ≠ 0) : ProcOk E G role s' i p :=
  h.frame hinv (hm.frame (S := fun _ => False)) h0 (fun hF => hF) (SameRole.refl p)

section

variable (h : KInv E G O role used s)

include h

/-- One entry changes, and its process is in order if it can run. -/
theorem KInv.change {f : Proc → Proc} (hpid : (f (s.processes i)).pid = (s.processes i).pid)
    (hpt : (f (s.processes i)).pagetable = (s.processes i).pagetable)
    (hfd : (f (s.processes i)).fdList = (s.processes i).fdList)
    (hzero : i = 0 → (f (s.processes i)).state = .free)
    (hlive : (s.updProc i f).Live i → ProcOk E G role s i (f (s.processes i)))
    (howner : O → (f (s.processes i)).state = .free →
      ∀ pn < 512, (s.pageinfo pn).owner ≠ i) :
    KInv E G O role used (s.updProc i f) := by
  have hm : SameMach s (s.updProc i f) := ⟨rfl, rfl, rfl, rfl, rfl⟩
  have hsame : (s.updProc i f).processes i = f (s.processes i) := s.updProc_same i f
  have hother : ∀ j ≠ i, (s.updProc i f).processes j = s.processes j :=
    fun j hj => s.updProc_other f hj
  have hstate0 : ((s.updProc i f).processes 0).state = .free := by
    by_cases hi : (0 : Int) = i
    · subst hi
      rw [hsame]
      exact hzero rfl
    · rw [hother 0 hi]
      exact h.zero
  refine ⟨hm.minv h.mach, ⟨fun j h0 h16 => ?_, ?_, h.numbered.current⟩, hstate0, fun j hj => ?_,
    fun j h0 h16 => ?_, fun hO pn hpn hown => ?_, fun j h0 h16 => ?_, h.console, h.bare⟩
  · by_cases hj : j = i
    · subst hj
      rw [hsame, hpid]
      exact h.numbered.pids j h0 h16
    · rw [hother j hj]
      exact h.numbered.pids j h0 h16
  · rw [hstate0]
    decide
  · have h1 := hj.1
    by_cases hji : j = i
    · subst hji
      rw [hsame]
      exact (hlive hj).same h.mach hm (by omega)
    · have hlive' : s.Live j := by
        unfold KState.Live at hj
        rwa [hother j hji] at hj
      rw [hother j hji]
      exact (h.live j hlive').same h.mach hm (by omega)
  · by_cases hj : j = i
    · subst hj
      rw [hsame, hpt]
      exact h.table j h0 h16
    · rw [hother j hj]
      exact h.table j h0 h16
  · obtain ⟨hlt, hst⟩ := h.owner hO pn hpn hown
    refine ⟨hlt, ?_⟩
    show ((s.updProc i f).processes (s.pageinfo pn).owner).state ≠ .free
    by_cases hi : (s.pageinfo pn).owner = i
    · rw [hi, hsame]
      exact fun hfree => howner hO hfree pn hpn hi
    · rw [hother _ hi]
      exact hst
  · by_cases hj : j = i
    · subst hj
      rw [hsame, hfd]
      exact h.fd j h0 h16
    · rw [hother j hj]
      exact h.fd j h0 h16

/-- A process that cannot run any more. -/
theorem KInv.broken (hi : 1 ≤ i) :
    KInv E G O role used (s.updProc i fun p => { p with state := .broken }) := by
  refine h.change rfl rfl rfl (fun h0 => by omega) (fun hlive => ?_) fun _ hx => by cases hx
  have hst := hlive.2.2
  rw [s.updProc_same] at hst
  rcases hst with hst | hst <;> cases hst

/-- An entry that is free again. -/
theorem KInv.freed (howner : O → ∀ pn < 512, (s.pageinfo pn).owner ≠ i) :
    KInv E G O role used (s.updProc i fun p => { p with state := .free }) := by
  refine h.change rfl rfl rfl (fun _ => rfl) (fun hlive => ?_) fun hO _ => howner hO
  have hst := hlive.2.2
  rw [s.updProc_same] at hst
  rcases hst with hst | hst <;> cases hst

/-- A live process that waits for `c`, with a place of its own for the exit
code. -/
theorem KInv.blocked (hlive : s.Live s.current)
    (ha : ∀ d < 4, UserByte role s s.current (a + d)) :
    KInv E G O role used (s.updProc s.current fun p =>
      { p with state := .blocked, waitPid := c, waitExitCode := a }) := by
  have h1 := hlive.1
  exact h.change rfl rfl rfl (fun h0 => by omega)
    (fun _ => ⟨(h.live _ hlive).space, fun _ => ha⟩) fun _ hx => by cases hx

/-- A live process can run. -/
theorem KInv.woken (hlive : s.Live i) :
    KInv E G O role used (s.updProc i fun p => { p with state := .runnable }) := by
  have h1 := hlive.1
  exact h.change rfl rfl rfl (fun h0 => by omega)
    (fun _ => ⟨(h.live i hlive).space, (h.live i hlive).wait⟩) fun _ hx => by cases hx

end

-- ==== pages given back

/-- The trees of all owners but one. -/
def Roles.drop (role : Roles) (o : Int) : Roles := fun pn =>
  match role pn with
  | none => none
  | some p => if p.owner = o then none else some p

theorem Roles.drop_some {p : Place} :
    role.drop o pn = some p ↔ role pn = some p ∧ p.owner ≠ o := by
  unfold Roles.drop
  rcases role pn with - | q
  · exact ⟨nofun, fun h => nomatch h.1⟩
  · dsimp only
    by_cases hq : q.owner = o
    · rw [if_pos hq]
      refine ⟨nofun, fun h => ?_⟩
      cases h.1
      exact absurd hq h.2
    · rw [if_neg hq]
      refine ⟨fun h => ?_, fun h => h.1⟩
      cases h
      exact ⟨rfl, hq⟩

theorem Roles.drop_none (h : role pn = none) : role.drop o pn = none := by
  unfold Roles.drop
  rw [h]

/-- Pages of `o` are free, all that hold tables among them. -/
structure Released (o : Int) (s s' : KState) : Prop where
  mem : s'.mem = s.mem
  heapPages : s'.heapPages = s.heapPages
  freeList : s'.freeList = s.freeList
  pageno : s'.pageno = s.pageno
  pages : ∀ pn, s'.pageinfo pn = s.pageinfo pn
    ∨ ((s.pageinfo pn).owner = o ∧ s'.pageinfo pn = ⟨0, 0⟩)

theorem Released.frame (h : Released o s s') (hinv : MInv E role used s) :
    Frame (fun q => q = o) role s (role.drop o) s' := by
  intro pn h0 hne
  refine ⟨?_, ?_, fun x _ => congrFun h.mem x⟩
  · rcases h.pages pn with hsame | ⟨hown, -⟩
    · exact hsame
    · exact absurd hown hne
  · rcases hr : role pn with - | p
    · exact Roles.drop_none hr
    · refine Roles.drop_some.mpr ⟨hr, fun hp => hne ?_⟩
      rw [(hinv.own pn p hr).1]
      exact hp

/-- Nothing of the kernel and of the others is gone. -/
theorem MInv.released (h : MInv E role used s) (ho : 1 ≤ o) (hr : Released o s s') :
    MInv E (role.drop o) used s' := by
  refine h.of_frame (hr.frame h) (fun q hq => hq.symm ▸ ho) hr.heapPages hr.freeList ?_
    (fun pn p hp => ?_) (fun pn hpn => ?_) (hr.pageno.symm ▸ h.cursor)
  · rw [hr.mem]
    refine ⟨⟨fun pn q l pre hp hl i hi => ?_⟩, fun pn p hp => ?_⟩
    · obtain ⟨hp, hq⟩ := Roles.drop_some.mp hp
      rcases h.tables.upper pn q l pre hp hl i hi with h0 | ⟨c, hc, hrc⟩
      · exact .inl h0
      · exact .inr ⟨c, hc, Roles.drop_some.mpr ⟨hrc, hq⟩⟩
    · exact h.tables.low pn p (Roles.drop_some.mp hp).1
  · obtain ⟨hp, hq⟩ := Roles.drop_some.mp hp
    obtain ⟨hinfo, h0⟩ := h.own pn p hp
    refine ⟨?_, h0⟩
    rcases hr.pages pn with hsame | ⟨hown, -⟩
    · exact hsame.trans hinfo
    · rw [hinfo] at hown
      exact absurd hown hq
  · rcases hr.pages pn with hsame | ⟨-, hfree⟩
    · rw [hsame]
      exact h.count pn hpn
    · rw [hfree]
      rfl

/-- Pages of a process that cannot run are given back. -/
theorem KInv.released (h : KInv E G O role used s) (ho : 1 ≤ o) (hr : Released o s s')
    (hdead : ¬ s.Live o) (hp : s'.processes = s.processes) (hc : s'.current = s.current) :
    KInv E G O (role.drop o) used s' := by
  have hframe := hr.frame h.mach
  refine ⟨h.mach.released ho hr, ⟨hp ▸ h.numbered.pids, hp ▸ h.numbered.zero,
    hc.symm ▸ h.numbered.current⟩, hp ▸ h.zero, fun i hi => ?_, hp ▸ h.table,
    fun hO pn hpn hown => ?_, fun i h0 h16 => ?_, Roles.drop_none h.console, fun p hpage => ?_⟩
  · have hlive : s.Live i := by
      unfold KState.Live at hi
      rwa [hp] at hi
    have h1 := hlive.1
    have hne : i ≠ o := by
      rintro rfl
      exact hdead hlive
    rw [hp]
    exact (h.live i hlive).frame h.mach hframe (by omega) hne (SameRole.refl _)
  · rw [hp]
    rcases hr.pages pn with hsame | ⟨-, hfree⟩
    · rw [hsame] at hown ⊢
      exact h.owner hO pn hpn hown
    · rw [hfree] at hown
      exact absurd hown (by decide)
  · rw [hp]
    exact (h.fd i h0 h16).congr fun b hb x hx =>
      h.mach.used_frame hframe (by omega) hb hx
  · rw [hr.heapPages] at hpage
    exact Roles.drop_none (h.bare p hpage)

-- ==== killed

/-- The entry is broken, the pages are given back. -/
theorem KInv.killed (h : KInv E G O role used s) (hp : 1 ≤ pid) :
    KInv E G O (role.drop pid) used (Kernel.killed pid s) := by
  refine (h.broken hp).released hp ⟨rfl, rfl, rfl, rfl, fun pn => ?_⟩ (fun hlive => ?_) rfl rfl
  · by_cases hpn : pn < 512 ∧ (s.pageinfo pn).owner = pid
    · exact .inr ⟨hpn.2, if_pos hpn⟩
    · exact .inl (if_neg hpn)
  · have hst := hlive.2.2
    rw [s.updProc_same] at hst
    rcases hst with hst | hst <;> cases hst

theorem killed_live (hne : i ≠ pid) (hlive : s.Live i) : (killed pid s).Live i := by
  unfold KState.Live
  rw [killed_processes, if_neg hne]
  exact hlive

/-- A kill keeps the invariant when the parent it wakes, if it wakes one,
is another process that lives. -/
theorem KInv.processKill (h : KInv E G O role used s) (hp : 1 ≤ pid)
    (hw : Wakes s pid → (s.processes pid).parent ≠ pid ∧ s.Live (s.processes pid).parent)
    (hrun : Kernel.processKill E pid s = (.ok (), s')) :
    KInv E G O (role.drop pid) used s' := by
  have hk := h.killed hp
  rcases processKill_ok hrun with ⟨hwake, -, rfl⟩ | ⟨-, rfl⟩
  swap
  · exact hk
  obtain ⟨hne, hlive⟩ := hw hwake
  have hlive' := killed_live hne hlive
  have hsame : (Kernel.killed pid s).processes (s.processes pid).parent
      = s.processes (s.processes pid).parent := by
    rw [killed_processes, if_neg hne]
  refine (hk.store_user hlive.1 fun d hd => ?_).woken hlive'
  have hwait := (hk.live _ hlive').wait
  rw [hsame, hwake.2] at hwait
  rw [hsame]
  exact hwait hp d hd

end RojocOS.Kernel
