/-
The life of a process table entry.

`process_kill` and `process_setup` are the two routines that change an
entry other than by serving its process. `processKill_ok` says what the
first leaves, `processSetup_ok` the second. With them every `Act` is known
entry by entry.

# Numbers

`Numbered` holds in every state of every run: an entry has its own index
as pid, the running process is one of `1 .. NPROC-1`, and process 0 does
nothing. No condition on the calls is needed, because an entry's pid is
set once, by `memset` and the loop behind it.
-/
import RojocOS.Kernel.Proofs.Trap
import RojocOS.Kernel.Proofs.NewProcess

namespace RojocOS.Kernel

open ByteMap Prog

variable {E : KEnv} {s s' s₁ s0 : KState} {pid o : Int} {ev : Event} {pagetable : Nat}
  {t : Trap}
variable {keep : Nat → Bool} {i parent : Int} {n : Nat} {C : KState → Event → Prop}

-- ==== kill

/-- The entry is broken and its pages are free. -/
def killed (pid : Int) (s : KState) : KState :=
  { s.updProc pid fun p => { p with state := .broken } with
    pageinfo := fun pn =>
      if pn < 512 ∧ (s.pageinfo pn).owner = pid then ⟨PO_FREE, 0⟩ else s.pageinfo pn }

/-- The exit code is delivered and the parent can go on. -/
def woken (pid parent : Int) (s : KState) : KState :=
  { s with
    mem := store s.mem (s.processes parent).waitExitCode 4
      (reg64 (s.processes pid).exitCode) }.updProc parent fun p =>
    { p with state := .runnable }

/-- `process_kill(pid)` finds that the parent has waited for `pid`: now, or
at any time since it started. -/
def Wakes (s : KState) (pid : Int) : Prop :=
  1 ≤ (s.processes pid).parent ∧ (s.processes (s.processes pid).parent).waitPid = pid

instance (s : KState) (pid : Int) : Decidable (Wakes s pid) :=
  inferInstanceAs (Decidable (_ ∧ _))

theorem killed_processes (pid i : Int) (s : KState) : (killed pid s).processes i
    = if i = pid then { s.processes i with state := .broken } else s.processes i := rfl

theorem killed_same (pid i : Int) (s : KState) :
    ((killed pid s).processes i).parent = (s.processes i).parent
      ∧ ((killed pid s).processes i).waitPid = (s.processes i).waitPid := by
  rw [killed_processes]
  by_cases hi : i = pid
  · rw [if_pos hi]
    exact ⟨rfl, rfl⟩
  · rw [if_neg hi]
    exact ⟨rfl, rfl⟩

/-- The release loop gets through when the counts are right. -/
theorem releasePages_eq (hpages : ∀ pn < 512,
      (s.pageinfo pn).owner = pid → keep pn = false → (s.pageinfo pn).refcount = 1) :
    releasePages pid keep s = (.ok (), { s with
      pageinfo := fun pn =>
        if pn < 512 ∧ (s.pageinfo pn).owner = pid ∧ keep pn = false then ⟨PO_FREE, 0⟩
        else s.pageinfo pn }) := by
  unfold releasePages
  rw [get_bind, assert_bind ?_]
  · rfl
  · exact fun pn hpn => hpages pn (List.mem_range.mp hpn)

theorem releasePages_ok (h : releasePages pid keep s = (.ok (), s')) : s' = { s with
      pageinfo := fun pn =>
        if pn < 512 ∧ (s.pageinfo pn).owner = pid ∧ keep pn = false then ⟨PO_FREE, 0⟩
        else s.pageinfo pn } := by
  have h2 := bind_step h rfl
  obtain ⟨-, h4⟩ := assert_bind_ok h2
  cases h4
  rfl

theorem wakeParent_ok (h : wakeParent E pid parent s = (.ok (), s')) :
    s' = woken pid parent s := by
  have h2 := bind_step h rfl
  obtain ⟨_, s2, h3, h4⟩ := bind_ok.mp h2
  obtain ⟨_, s3, h5, h6⟩ := bind_ok.mp h4
  have hs : s2 = s := by
    obtain ⟨-, h8⟩ := failIf_bind_ok h3
    exact (failIf_ok h8).2
  subst hs
  cases h5
  cases h6
  rfl

/-- What `process_kill` does. -/
theorem processKill_ok (h : processKill E pid s = (.ok (), s')) :
    (Wakes s pid ∧ (s.processes pid).parent < 16
        ∧ s' = woken pid (s.processes pid).parent (killed pid s))
      ∨ (¬ Wakes s pid ∧ s' = killed pid s) := by
  have h2 := bind_step h rfl
  obtain ⟨_, s2, h3, h4⟩ := bind_ok.mp h2
  have hs2 : s2 = killed pid s := by
    rw [releasePages_ok h3]
    simp only [and_true]
    rfl
  subst hs2
  rw [get_bind] at h4
  obtain ⟨hpar, -⟩ := killed_same pid pid s
  obtain ⟨-, hwait⟩ := killed_same pid (s.processes pid).parent s
  rw [hpar, hwait] at h4
  by_cases hlo : 1 ≤ (s.processes pid).parent
  · rw [if_pos hlo] at h4
    obtain ⟨hhi, h8⟩ := assert_bind_ok h4
    by_cases hw : (s.processes (s.processes pid).parent).waitPid = pid
    · rw [if_pos hw] at h8
      exact .inl ⟨⟨hlo, hw⟩, hhi, wakeParent_ok h8⟩
    · rw [if_neg hw] at h8
      cases h8
      exact .inr ⟨fun hx => hw hx.2, rfl⟩
  · rw [if_neg hlo] at h4
    cases h4
    exact .inr ⟨fun hx => hlo hx.1, rfl⟩

/-- So does the end of a process, up to the question who waits for it. -/
theorem processKill_released (hpages : ∀ pn < 512, (s.pageinfo pn).owner = pid →
      (s.pageinfo pn).refcount = 1) :
    processKill E pid s = (if 1 ≤ (s.processes pid).parent then do
        Prog.assert ((s.processes pid).parent < 16)
        if (s.processes (s.processes pid).parent).waitPid = pid then
          wakeParent E pid (s.processes pid).parent
        else pure ()
      else pure () : KM Unit) (killed pid s) := by
  have hrelease : releasePages pid (fun _ => false)
      (s.updProc pid fun p => { p with state := .broken }) = (.ok (), killed pid s) := by
    rw [releasePages_eq (s := s.updProc pid fun p => { p with state := .broken })
      fun pn hpn hown _ => hpages pn hpn hown]
    simp only [and_true]
    rfl
  obtain ⟨hsame, -⟩ := killed_same pid pid s
  obtain ⟨-, hwait⟩ := killed_same pid (s.processes pid).parent s
  unfold processKill
  rw [bind_of_ok (x := Prog.modify _) rfl, bind_of_ok hrelease, get_bind, hsame, hwait]

/-- Nobody waits. -/
theorem processKill_eq (hpages : ∀ pn < 512, (s.pageinfo pn).owner = pid →
      (s.pageinfo pn).refcount = 1)
    (hpar : (s.processes pid).parent < 16) (hw : ¬ Wakes s pid) :
    processKill E pid s = (.ok (), killed pid s) := by
  rw [processKill_released hpages]
  by_cases hlo : 1 ≤ (s.processes pid).parent
  · rw [if_pos hlo, assert_bind hpar, if_neg fun hx => hw ⟨hlo, hx⟩]
    rfl
  · rw [if_neg hlo]
    rfl

/-- The process table after it. -/
theorem processKill_processes (h : processKill E pid s = (.ok (), s')) (i : Int) :
    s'.processes i = if Wakes s pid ∧ i = (s.processes pid).parent then
        { s.processes i with state := .runnable }
      else if i = pid then { s.processes i with state := .broken } else s.processes i := by
  have hkilled := killed_processes pid i s
  rcases processKill_ok h with ⟨hw, -, rfl⟩ | ⟨hw, rfl⟩
  · by_cases hi : i = (s.processes pid).parent
    · rw [if_pos ⟨hw, hi⟩]
      have hsame : (woken pid (s.processes pid).parent (killed pid s)).processes i
          = { (killed pid s).processes i with state := .runnable } := by
        rw [hi]
        exact KState.updProc_same _ _ _
      rw [hsame, hkilled]
      by_cases hp : i = pid
      · rw [if_pos hp]
      · rw [if_neg hp]
    · rw [if_neg fun hx => hi hx.2, ← hkilled]
      exact KState.updProc_other _ _ hi
  · rw [if_neg fun hx => hw hx.1]
    exact hkilled

theorem processKill_current (h : processKill E pid s = (.ok (), s')) :
    s'.current = s.current ∧ s'.heapPages = s.heapPages ∧ s'.pageinfo = fun pn =>
      if pn < 512 ∧ (s.pageinfo pn).owner = pid then ⟨PO_FREE, 0⟩ else s.pageinfo pn := by
  rcases processKill_ok h with ⟨-, -, rfl⟩ | ⟨-, rfl⟩
  · exact ⟨rfl, rfl, rfl⟩
  · exact ⟨rfl, rfl, rfl⟩

-- ==== setup

/-- The kernel worked on entry `o`. -/
structure Fills (o : Int) (s s' : KState) : Prop extends Takes s s' where
  current : s'.current = s.current
  others : ∀ i, i ≠ o → s'.processes i = s.processes i
  pid : (s'.processes o).pid = (s.processes o).pid
  cwd : (s'.processes o).cwd = (s.processes o).cwd

section Setup

variable {o : Int}

theorem Calm.fills (h : Calm s s') : Fills o s s' :=
  ⟨h.toTakes, h.current, fun i _ => congrFun h.processes i, by rw [h.processes],
    by rw [h.processes]⟩

theorem Fills.trans (h : Fills o s s₁) (h' : Fills o s₁ s') : Fills o s s' :=
  ⟨h.toTakes.trans h'.toTakes, h'.current.trans h.current,
    fun i hi => (h'.others i hi).trans (h.others i hi), h'.pid.trans h.pid,
    h'.cwd.trans h.cwd⟩

theorem Fills.entry (f : Proc → Proc) (hf : ∀ p, (f p).pid = p.pid ∧ (f p).cwd = p.cwd) :
    Fills o s (s.updProc o f) := by
  refine ⟨Takes.of_same rfl rfl, rfl, fun i hi => s.updProc_other f hi, ?_, ?_⟩
  · rw [s.updProc_same]
    exact (hf _).1
  · rw [s.updProc_same]
    exact (hf _).2

/-- Every entry's directory is still there. -/
theorem Fills.cwds (h : Fills o s s') (i : Int) :
    (s'.processes i).cwd = (s.processes i).cwd := by
  by_cases hi : i = o
  · subst hi
    exact h.cwd
  · rw [h.others i hi]

theorem Fills.paged : Paged (Fills o) where
  refl s := (Calm.refl s).fills
  trans := Fills.trans
  mem s m := (Calm.paged.mem s m).fills
  take s o hfree := (Calm.paged.take s o hfree).fills
  turn s n := (Calm.paged.turn s n).fills

theorem setupFrom_ok (h : setupFrom E o n parent pagetable s = (.ok (), s')) :
    ∃ s0, Fills o s s0 ∧ s' = setupEnd o parent s0 := by
  obtain ⟨-, h2⟩ := assert_bind_ok h
  obtain ⟨_, s2, h3, h4⟩ := bind_ok.mp h2
  have hmap := ((Calm.paged.walk.mapKernel _).of_run h3).fills (o := o)
  have h6 := bind_step h4 rfl
  obtain ⟨r, s4, h7, h8⟩ := bind_ok.mp h6
  have hload := (Fills.paged.walk.programLoad (fun f hf s => Fills.entry f hf) n).of_run h7
  obtain ⟨-, h10⟩ := assert_bind_ok h8
  have h12 := bind_step h10 rfl
  obtain ⟨_, s7, h13, h14⟩ := bind_ok.mp h12
  have hstack := ((Calm.paged.walk.mapStack _ _).of_run h13).fills (o := o)
  cases h14
  refine ⟨s7, ?_, rfl⟩
  refine (hmap.trans (Fills.entry _ (by intro _; exact ⟨rfl, rfl⟩))).trans (hload.trans ?_)
  exact (Fills.entry _ (by intro _; exact ⟨rfl, rfl⟩)).trans hstack

/-- A new process. -/
structure Renewed (o maker : Int) (s s' : KState) : Prop extends Takes s s' where
  current : s'.current = o
  others : ∀ i, i ≠ o → s'.processes i = s.processes i
  pid : (s'.processes o).pid = (s.processes o).pid
  parent : (s'.processes o).parent = maker
  state : (s'.processes o).state = .runnable
  waitPid : (s'.processes o).waitPid = -1
  fdMax : (s'.processes o).fdMax = 0
  fdList : (s'.processes o).fdList = 0
  cwd : (s'.processes o).cwd = (s.processes maker).cwd

/-- What `process_setup` does to the process table. -/
theorem processSetup_ok
    (h : processSetup E o n parent s = (.ok (), s')) : Renewed o parent s s' := by
  rw [processSetup_eq] at h
  obtain ⟨pagetable, s₁, h1, h2⟩ := bind_ok.mp h
  have hroot := (Calm.paged.walk.pagetableAlloc.of_run h1).fills (o := o)
  obtain ⟨s2, hfrom, rfl⟩ := setupFrom_ok h2
  have hstart : Fills o { s with current := o } (setupStart o s) :=
    Fills.entry (fun p => { p with registers := initRegisters })
      fun _ => ⟨rfl, rfl⟩
  have hall := hstart.trans (hroot.trans hfrom)
  have htakes : Takes s { s with current := o } := Takes.of_same rfl rfl
  have hend : (setupEnd o parent s2).processes o = _ := s2.updProc_same o _
  have hend' : Takes s2 (setupEnd o parent s2) := Takes.of_same rfl rfl
  refine ⟨htakes.trans (hall.toTakes.trans hend'), hall.current, fun i hi => ?_, ?_, ?_, ?_,
    ?_, ?_, ?_, ?_⟩
  · exact (s2.updProc_other _ hi).trans (hall.others i hi)
  · rw [hend]
    exact hall.pid
  · rw [hend]
  · rw [hend]
  · rw [hend]
  · rw [hend]
  · rw [hend]
  · rw [hend]
    exact hall.cwds parent

end Setup

-- ==== numbers

/-- Entries have their index as pid, process 0 does not run, and the
running process is another one. -/
structure Numbered (s : KState) : Prop where
  pids : ∀ i : Int, 0 ≤ i → i < 16 → (s.processes i).pid = i
  zero : (s.processes 0).state ≠ .runnable
  current : 1 ≤ s.current ∧ s.current < 16

theorem Numbered.cur (h : Numbered s) : s.cur.pid = s.current :=
  h.pids s.current (by have := h.current; omega) h.current.2

/-- Nothing of it changed. -/
theorem Numbered.of_pids (h : Numbered s)
    (hpid : ∀ i, (s'.processes i).pid = (s.processes i).pid)
    (hzero : (s'.processes 0).state = .runnable → (s.processes 0).state = .runnable)
    (hc : s'.current = s.current) : Numbered s' :=
  ⟨fun i h1 h2 => (hpid i).trans (h.pids i h1 h2), fun hx => h.zero (hzero hx),
    hc.symm ▸ h.current⟩

/-- One entry changes. -/
theorem Numbered.updProc (h : Numbered s) {f : Proc → Proc}
    (hf : ∀ p, (f p).pid = p.pid) (hi : i = 0 → (f (s.processes 0)).state ≠ .runnable) :
    Numbered (s.updProc i f) := by
  refine h.of_pids (fun j => ?_) (fun hx => ?_) rfl
  · by_cases hj : j = i
    · rw [hj, s.updProc_same]
      exact hf _
    · rw [s.updProc_other f hj]
  · by_cases hj : (0 : Int) = i
    · subst hj
      rw [s.updProc_same] at hx
      exact absurd hx (hi rfl)
    · rwa [s.updProc_other f hj] at hx

theorem Serves.numbered (h : Serves s s') (hs : Numbered s) : Numbered s' := by
  have hne : (0 : Int) ≠ s.current := by
    have := hs.current
    omega
  refine hs.of_pids (fun i => ?_) (fun hx => ?_) h.current
  · by_cases hi : i = s.current
    · have hrole := h.role.pid
      unfold KState.cur at hrole
      rw [h.current] at hrole
      rw [hi]
      exact hrole
    · rw [h.others i hi]
  · rwa [h.others 0 hne] at hx

theorem Numbered.processKill (hs : Numbered s) (h : processKill E pid s = (.ok (), s')) :
    Numbered s' := by
  refine hs.of_pids (fun i => ?_) (fun hx => ?_) (processKill_current h).1
  · rw [processKill_processes h]
    split
    · rfl
    · split <;> rfl
  · rw [processKill_processes h] at hx
    split at hx
    · next hw =>
        have := hw.1.1
        omega
    · split at hx
      · cases hx
      · exact hx

/-- The state of the child in the process table. -/
theorem forkChild_processes (parent c : Int) (pagetable : Nat) (s : KState) (i : Int) :
    (forkChild parent c pagetable s).processes i = if i = c then
        { s.processes i with
          parent := (s.processes parent).pid
          pagetable := pagetable
          registers := { (s.processes parent).registers with rax := 0 }
          state := .runnable
          waitPid := -1
          cwd := (s.processes parent).cwd }
      else s.processes i := rfl

theorem Act.numbered (h : Act E t s s') (hs : Numbered s) : Numbered s' := by
  have hne : s.current ≠ 0 := by
    have := hs.current
    omega
  cases h with
  | serve h => exact h.numbered hs
  | fault => exact hs.updProc (fun _ => rfl) fun h0 => absurd h0 hne
  | forget hpid hlo hhi hparent hstate h =>
    exact h.numbered (hs.updProc (fun _ => rfl) fun _ hx => by cases hx)
  | block hpid hlo hparent hstate h =>
    have hs1 := h.numbered hs
    exact hs1.updProc (fun _ => rfl) fun _ hx => by cases hx
  | exit ht h hkill => exact (h.numbered hs).processKill hkill
  | kill h hkill => exact (h.numbered hs).processKill hkill
  | @fork _ s₁ _ c pagetable hslot h h' =>
    obtain ⟨hlo, hhi, -⟩ := freeSlot_some hslot
    have hproc : s₁.processes = s.processes := h.processes
    refine h'.numbered (hs.of_pids (fun i => ?_) (fun hx => ?_) rfl)
    · have heq := forkChild_processes s.current c pagetable s₁ i
      rw [hproc] at heq
      refine (congrArg Proc.pid heq).trans ?_
      split <;> rfl
    · have heq := forkChild_processes s.current c pagetable s₁ 0
      rw [hproc, if_neg (by omega)] at heq
      exact (congrArg Proc.state heq).symm.trans hx
  | exec h hrelease hsetup h' =>
    have hs1 := h.numbered hs
    rw [releasePages_ok hrelease] at hsetup
    have hren := processSetup_ok hsetup
    rw [hs.cur] at hren
    refine h'.numbered (hs1.of_pids (fun i => ?_) (fun hx => ?_) ?_)
    · by_cases hi : i = s.current
      · rw [hi]
        exact hren.pid
      · rw [hren.others i hi]
    · rwa [hren.others 0 (Ne.symm hne)] at hx
    · exact hren.current.trans h.current.symm

-- ==== boot

/-- An entry of the process table when the first process starts. -/
structure BootEntry (i : Int) (p : Proc) : Prop where
  pid : p.pid = i
  parent : p.parent = 0
  state : p.state = if i = 1 ∨ i = 5 then .runnable else .free
  waitPid : p.waitPid = if i = 1 ∨ i = 5 then -1 else 0
  fdList : p.fdList = 0
  fdMax : p.fdMax = 0
  cwd : p.cwd = if i = 0 ∨ i = 1 ∨ i = 5 then [Fs.slash] else []

/-- The process table at that time. -/
structure BootTable (s : KState) : Prop where
  current : s.current = 1
  entry : ∀ i : Int, 0 ≤ i → i < 16 → BootEntry i (s.processes i)

/-- The accounts when the first process starts. -/
structure BootPages (E : KEnv) (s : KState) : Prop where
  pages : ∀ pn, pn < 512 → bootOwner E pn ≠ 0 → s.pageinfo pn = ⟨bootOwner E pn, 1⟩
  heap : HeapOwned s

theorem clearProcesses_entry (s : KState) (h0 : 0 ≤ i) (h1 : i < 16) :
    (clearProcesses s).processes i
      = { Proc.zero i with cwd := if i = 0 then [Fs.slash] else [] } := by
  show (if i = 0 then _ else if 0 < i ∧ i < 16 then _ else _ : Proc) = _
  by_cases hi : i = 0
  · subst hi
    rfl
  · rw [if_neg hi, if_pos ⟨by omega, h1⟩, if_neg hi]
    rfl

/-- What the boot sequence does before there are processes. -/
theorem boot_start (h : boot E s0 = (.ok (), s)) :
    ∃ s₁ s2 s3, Takes (pageinfoInit E s0).2 s₁
      ∧ processSetup E 5 2 0 (clearProcesses s₁) = (.ok (), s2)
      ∧ processSetup E 1 1 0 s2 = (.ok (), s3) ∧ run E 1 s3 = (.ok (), s) := by
  obtain ⟨_, t1, h1, h2⟩ := bind_ok.mp h
  obtain ⟨_, t2, h3, h4⟩ := bind_ok.mp h2
  obtain ⟨_, t3, h5, h6⟩ := bind_ok.mp h4
  obtain ⟨_, t4, h7, h8⟩ := bind_ok.mp h6
  obtain ⟨_, t5, h9, h10⟩ := bind_ok.mp h8
  obtain ⟨_, t6, h11, h12⟩ := bind_ok.mp h10
  obtain ⟨_, t7, h13, h14⟩ := bind_ok.mp h12
  cases h9
  refine ⟨t4, t6, t7, ?_, h11, h13, h14⟩
  have hinit : Keeps SameButMem (virtualMemoryInit E) :=
    SameButMem.framed.bind (SameButMem.framed.store _) fun _ =>
      SameButMem.framed.bind (SameButMem.framed.walk.virtualMemoryMap_none _ _ _ _ _) fun _ =>
        SameButMem.framed.pure _
  have hmem := hinit s0
  rw [h1] at hmem
  obtain ⟨m, rfl⟩ := hmem
  cases h3
  have hmap := (Calm.paged.walk.virtualMemoryMap_none _ _ _ _ _).of_run h5
  have hfs : Keeps Calm (initFs E) := by
    refine Calm.paged.bind Calm.paged.get fun t => Calm.paged.bind (fsCall_calm _) fun r => ?_
    cases r with
    | error c => exact Calm.paged.pure _
    | ok d => exact fun t => Calm.of_same rfl rfl rfl rfl
  have hstart : Takes (pageinfoInit E s0).2 (pageinfoInit E { s0 with mem := m }).2 :=
    Takes.of_same rfl rfl
  exact hstart.trans (hmap.toTakes.trans (hfs.of_run h7).toTakes)

theorem Renewed.bootEntry (h : Renewed o 0 s s') (ho : o = 1 ∨ o = 5)
    (hpid : (s.processes o).pid = o) (hcwd : (s.processes 0).cwd = [Fs.slash]) :
    BootEntry o (s'.processes o) :=
  ⟨h.pid.trans hpid, h.parent, h.state.trans (if_pos ho).symm,
    h.waitPid.trans (if_pos ho).symm, h.fdList, h.fdMax,
    (h.cwd.trans hcwd).trans (if_pos (.inr ho)).symm⟩

theorem Booted.bootTable (h : Booted E s) : BootTable s := by
  obtain ⟨s0, -, h⟩ := h
  obtain ⟨s₁, s2, s3, -, h5, h1, hrun⟩ := boot_start h
  obtain ⟨rfl, -⟩ := run_ok hrun
  have r5 := processSetup_ok h5
  have r1 := processSetup_ok h1
  have hclear : ∀ i : Int, 0 ≤ i → i < 16 → _ := fun i h0 h1 => clearProcesses_entry s₁ h0 h1
  refine ⟨rfl, fun i h0 h16 => ?_⟩
  by_cases hi : i = 1
  · subst hi
    refine r1.bootEntry (.inl rfl) ?_ ?_
    · rw [r5.others 1 (by decide), hclear 1 (by decide) (by decide)]
      rfl
    · rw [r5.others 0 (by decide), hclear 0 (by decide) (by decide)]
      rfl
  · rw [r1.others i hi]
    by_cases hi' : i = 5
    · subst hi'
      refine r5.bootEntry (.inr rfl) ?_ ?_
      · rw [hclear 5 (by decide) (by decide)]
        rfl
      · rw [hclear 0 (by decide) (by decide)]
        rfl
    · have hne : ¬ (i = 1 ∨ i = 5) := not_or.mpr ⟨hi, hi'⟩
      rw [r5.others i hi', hclear i h0 h16]
      refine ⟨rfl, rfl, (if_neg hne).symm, (if_neg hne).symm, rfl, rfl, ?_⟩
      simp only [hi, hi', or_false]

theorem Booted.bootPages (h : Booted E s) : BootPages E s := by
  obtain ⟨s0, hstart, h⟩ := h
  obtain ⟨s₁, s2, s3, htakes, h5, h1, hrun⟩ := boot_start h
  obtain ⟨rfl, -⟩ := run_ok hrun
  have hclear : Takes s₁ (clearProcesses s₁) := Takes.of_same rfl rfl
  have hend : Takes s3 { s3 with current := 1 } := Takes.of_same rfl rfl
  have hall := htakes.trans (hclear.trans ((processSetup_ok h5).toTakes.trans
    ((processSetup_ok h1).toTakes.trans hend)))
  refine ⟨fun pn hpn h0 => ?_, hall.heap ?_⟩
  · have hinfo : (pageinfoInit E s0).2.pageinfo pn = ⟨bootOwner E pn, 1⟩ := by
      have h0' : bootOwner E pn ≠ PO_FREE := h0
      show (if pn < 512 then _ else _ : PageInfo) = _
      rw [if_pos hpn, if_pos h0']
    rw [hall.pages pn (by rw [hinfo]; exact h0), hinfo]
  · intro p hp
    rw [show (pageinfoInit E s0).2.heapPages = [] from hstart.heapPages] at hp
    cases hp

theorem BootTable.numbered (h : BootTable s) : Numbered s := by
  refine ⟨fun i h0 h16 => (h.entry i h0 h16).pid, ?_, by rw [h.current]; decide⟩
  rw [(h.entry 0 (by decide) (by decide)).state]
  decide

-- ==== runs

/-- What a step keeps of an entry, from what an act keeps of it. -/
theorem Numbered.step (hs : Numbered s) (h : KStep E s ev s') : Numbered s' := by
  cases h with
  | user h => exact ⟨hs.pids, hs.zero, hs.current⟩
  | trap h =>
    obtain ⟨s₁, s2, hin, hact, hout⟩ := exception_act h
    have hs2 := hact.numbered (hin.serves.numbered hs)
    have hp := hout.processes
    refine ⟨hp ▸ hs2.pids, hp ▸ hs2.zero, ?_⟩
    rcases hout.who with hw | hw
    · rw [hw]
      exact hs2.current
    · refine ⟨?_, hw.2⟩
      by_contra hlt
      have h0 : s'.current = 0 := by omega
      have hrun := hout.running
      rw [h0] at hrun
      exact hs2.zero hrun

/-- A state of a run. -/
def Reached (E : KEnv) (C : KState → Event → Prop) (s : KState) : Prop :=
  ∃ s₀, Booted E s₀ ∧ KRun E C s₀ s

/-- What holds at boot and is kept by every step that meets `C` holds in
every state of a run. -/
theorem Reached.induct {P : KState → Prop} (hboot : ∀ s, Booted E s → P s)
    (hstep : ∀ s ev s', Numbered s → C s ev → P s → KStep E s ev s' → P s')
    (h : Reached E C s) : Numbered s ∧ P s := by
  obtain ⟨s0, h0, hrun⟩ := h
  induction hrun with
  | refl => exact ⟨h0.bootTable.numbered, hboot _ h0⟩
  | tail _ hlast ih =>
    obtain ⟨ev, hC, hev⟩ := hlast
    exact ⟨ih.1.step hev, hstep _ ev _ ih.1 hC ih.2 hev⟩

theorem Reached.numbered (h : Reached E C s) : Numbered s :=
  (h.induct (fun _ _ => trivial) fun _ _ _ _ _ _ _ => trivial).1

end RojocOS.Kernel
