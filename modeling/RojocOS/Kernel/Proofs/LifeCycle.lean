/-
The life cycle of processes, as a machine of its own.

Of a process table entry only three things matter for who waits for whom
and who can run: its state, its parent and the child it has waited for.
`LStep` is what one trap can do to these, for every entry at once; which
process it ends or forgets, if it does, is the trap's `Ending`.
`exception_lives` says that every trap of the kernel is such a step.
`ending` is computed from the state before the trap: `sys_exit` and the
built-in commands of `sys_execv` end the running process, `sys_kill` any
entry, and a page fault breaks the running process without `process_kill`.
-/
import RojocOS.Kernel.Proofs.Lives
import Mathlib.Logic.Function.Basic

namespace RojocOS.Kernel

open Prog

variable {E : KEnv} {s s' : KState} {regs : Registers} {pid cur : Int} {L L' : Int → Life}
  {ev : Event} {n : Nat} {p q : Proc} {t : Trap}

-- ==== the machine

/-- What the life cycle looks at of an entry. -/
structure Life where
  state : ProcState
  parent : Int
  waitPid : Int
  deriving DecidableEq, Repr

/-- How a trap ends a process: not at all, by a page fault of the running
process, by `process_kill`, or for good by `sys_forget`. -/
inductive Ending where
  | none
  | fault
  | kill (pid : Int)
  | forget (pid : Int)
  deriving DecidableEq, Repr

/-- The parent of `pid` has waited for it. -/
def WokenBy (L : Int → Life) (pid : Int) : Prop :=
  1 ≤ (L pid).parent ∧ (L (L pid).parent).waitPid = pid

instance (L : Int → Life) (pid : Int) : Decidable (WokenBy L pid) :=
  inferInstanceAs (Decidable (_ ∧ _))

/-- `process_kill(pid)`. -/
def killLives (pid : Int) (L : Int → Life) : Int → Life := fun i =>
  if WokenBy L pid ∧ i = (L pid).parent then { L i with state := .runnable }
  else if i = pid then { L i with state := .broken }
  else L i

/-- One trap, while `cur` is running. -/
inductive LStep (cur : Int) (L : Int → Life) : Ending → (Int → Life) → Prop
  | idle : LStep cur L .none L
  | forget {c : Int} (h1 : 1 ≤ c) (h16 : c < 16) (hparent : (L c).parent = cur)
      (hstate : (L c).state = .broken) :
      LStep cur L (.forget c) (Function.update L c { L c with state := .free })
  | block {c : Int} (h1 : 1 ≤ c) (hparent : (L c).parent = cur)
      (hstate : (L c).state ≠ .broken) :
      LStep cur L .none (Function.update L cur { L cur with state := .blocked, waitPid := c })
  | fork {c : Int} (h1 : 1 ≤ c) (h16 : c < 16) (hfree : (L c).state = .free) :
      LStep cur L .none (Function.update L c ⟨.runnable, cur, -1⟩)
  | exec : LStep cur L .none (Function.update L cur ⟨.runnable, (L cur).parent, -1⟩)
  | fault : LStep cur L .fault (Function.update L cur { L cur with state := .broken })
  | kill {pid : Int} : LStep cur L (.kill pid) (killLives pid L)

-- ==== the refinement

/-- An entry, seen by the life cycle. -/
def Proc.life (p : Proc) : Life := ⟨p.state, p.parent, p.waitPid⟩

/-- The process table, seen by the life cycle. -/
def KState.lives (s : KState) : Int → Life := fun i => (s.processes i).life

theorem SameRole.life (h : SameRole p q) : q.life = p.life := by
  unfold Proc.life
  rw [h.state, h.parent, h.waitPid]

theorem KState.lives_updProc (s : KState) (i : Int) (f : Proc → Proc) :
    (s.updProc i f).lives = Function.update s.lives i (f (s.processes i)).life := by
  funext j
  by_cases hj : j = i
  · subst hj
    rw [Function.update_self]
    exact congrArg Proc.life (s.updProc_same j f)
  · rw [Function.update_of_ne hj]
    exact congrArg Proc.life (s.updProc_other f hj)

theorem Serves.lives (h : Serves s s') : s'.lives = s.lives := by
  funext i
  by_cases hi : i = s.current
  · subst hi
    have hrole := h.role.life
    unfold KState.cur at hrole
    rw [h.current] at hrole
    exact hrole
  · exact congrArg Proc.life (h.others i hi)

theorem Resumed.lives (h : Resumed s s') : s'.lives = s.lives := by
  unfold KState.lives
  rw [h.processes]

theorem processKill_lives (h : processKill E pid s = (.ok (), s')) :
    s'.lives = killLives pid s.lives := by
  funext i
  refine (congrArg Proc.life (processKill_processes h i)).trans ?_
  rw [apply_ite Proc.life, apply_ite Proc.life]
  rfl

/-- The command that a path argument names. -/
def execCommand (s : KState) : Option Command := (execPath s).bind command

/-- How the trap that reached its handler ends a process. -/
def ending (s : KState) : Trap → Ending
  | .pagefault => .fault
  | .exit => .kill s.current
  | .kill => .kill (i32 s.cur.registers.rdi)
  | .forget => .forget (i32 s.cur.registers.rdi)
  | .execv =>
      match execCommand s with
      | none => .none
      | some (.program _) => .none
      | some _ => .kill s.current
  | _ => .none

/-- The traps that end nobody. -/
def Trap.Mild (t : Trap) : Prop :=
  t ≠ .pagefault ∧ t ≠ .exit ∧ t ≠ .kill ∧ t ≠ .forget ∧ t ≠ .execv

theorem ending_none (ht : t.Mild) : ending s t = .none := by
  obtain ⟨h1, h2, h3, h4, h5⟩ := ht
  unfold ending
  split
  · exact absurd rfl h1
  · exact absurd rfl h2
  · exact absurd rfl h3
  · exact absurd rfl h4
  · exact absurd rfl h5
  · rfl

section Dispatch

theorem Execs.lives (hn : Numbered s) (h : Execs E n s s') :
    s'.lives = Function.update s.lives s.current
      ⟨.runnable, (s.lives s.current).parent, -1⟩ := by
  obtain ⟨s1, s2, s3, keep, hserve, hrelease, hsetup, hend⟩ := h
  rw [releasePages_ok hrelease] at hsetup
  have hren := processSetup_ok hsetup
  rw [hn.cur] at hren
  rw [hend.lives]
  funext i
  by_cases hi : i = s.current
  · subst hi
    rw [Function.update_self]
    show Life.mk _ _ _ = _
    rw [hren.state, hren.parent, hren.waitPid]
    rfl
  · rw [Function.update_of_ne hi, ← hserve.lives]
    exact congrArg Proc.life (hren.others i hi)

theorem Act.lives (h : Act E t s s') (hn : Numbered s) (ht : t.Mild) :
    LStep s.current s.lives .none s'.lives := by
  obtain ⟨ht1, ht2, ht3, ht4, ht5⟩ := ht
  cases h with
  | serve h =>
    rw [h.lives]
    exact LStep.idle
  | fault => exact absurd rfl ht1
  | exit hx => exact absurd hx (not_or.mpr ⟨ht2, ht5⟩)
  | kill => exact absurd rfl ht3
  | forget => exact absurd rfl ht4
  | exec => exact absurd rfl ht5
  | @block _ s1 c a hpid hlo hparent hstate h =>
    have hcur := congrFun h.lives s.current
    rw [s1.lives_updProc, h.current, h.lives]
    rw [hn.cur] at hparent
    have hlife : Proc.life { s1.processes s.current with
        state := .blocked, waitPid := c, waitExitCode := a }
        = { s.lives s.current with state := .blocked, waitPid := c } :=
      congrArg (fun l : Life => { l with state := .blocked, waitPid := c }) hcur
    rw [hlife]
    exact LStep.block hlo hparent hstate
  | @fork _ s1 _ c pagetable hslot h h' =>
    obtain ⟨hlo, hhi, hfree⟩ := freeSlot_some hslot
    have hproc : s1.processes = s.processes := h.processes
    have htable : ({ forkChild s.current c pagetable s1 with current := s.current }
        : KState).lives = Function.update s1.lives c ⟨.runnable, (s1.processes s.current).pid,
          -1⟩ := by
      show (forkChild s.current c pagetable s1).lives = _
      unfold forkChild
      rw [s1.lives_updProc]
      rfl
    have hlives : s1.lives = s.lives := by
      unfold KState.lives
      rw [hproc]
    rw [h'.lives, htable, hlives, hproc, hn.pids _ (by have := hn.current; omega) hn.current.2]
    exact LStep.fork (by omega) (by omega) hfree

theorem pageFault_lives (h : pageFault s = (.ok (), s')) :
    LStep s.current s.lives .fault s'.lives := by
  have h2 := bind_step h rfl
  obtain ⟨-, h4⟩ := failIf_bind_ok h2
  cases h4
  rw [s.lives_updProc]
  exact LStep.fault

theorem sysForget_lives (hn : Numbered s) (h : sysForget s = (.ok (), s')) :
    LStep s.current s.lives (.forget (i32 s.cur.registers.rdi)) s'.lives := by
  obtain ⟨hrange, hparent, hstate, hrax⟩ := sysForget_ok h
  rw [((setRax_serves 0).of_run hrax).lives, s.lives_updProc]
  rw [hn.cur] at hparent
  exact LStep.forget hrange.1 hrange.2 hparent hstate

theorem dispatch_lives (hn : Numbered s) (h : dispatch E t s = (.ok (), s')) :
    LStep s.current s.lives (ending s t) s'.lives := by
  have hkilled : ∀ {pid : Int} {s1 : KState},
      (∃ s0, Serves s s0 ∧ processKill E pid s0 = (.ok (), s1)) →
      s1.lives = killLives pid s.lives := by
    intro pid s1 ⟨s0, hserve, hkill⟩
    rw [processKill_lives hkill, hserve.lives]
  have hdone : ∀ {s1 : KState},
      (∃ s0, Serves s s0 ∧ processKill E s.cur.pid s0 = (.ok (), s1)) →
      LStep s.current s.lives (.kill s.current) s1.lives := by
    intro s1 h₁
    rw [hkilled h₁, hn.cur]
    exact LStep.kill
  by_cases ht : t.Mild
  · obtain ⟨s1, hact, hres⟩ := dispatch_act h
    rw [ending_none ht, hres.lives]
    exact hact.lives hn ht
  · have hcases : t = .pagefault ∨ t = .exit ∨ t = .kill ∨ t = .forget ∨ t = .execv := by
      by_contra hne
      simp only [not_or] at hne
      exact ht hne
    rcases hcases with rfl | rfl | rfl | rfl | rfl
    · obtain ⟨_, s1, h1, h2⟩ := bind_ok.mp h
      rw [(resume_ok h2).lives]
      exact pageFault_lives h1
    · obtain ⟨_, s1, h1, h2⟩ := bind_ok.mp h
      rw [(resume_ok h2).lives]
      exact hdone (sysExit_ok h1)
    · obtain ⟨_, s1, h1, h2⟩ := bind_ok.mp h
      rw [(resume_ok h2).lives, hkilled (sysKill_ok h1)]
      exact LStep.kill
    · obtain ⟨_, s1, h1, h2⟩ := bind_ok.mp h
      rw [(resume_ok h2).lives]
      exact sysForget_lives hn h1
    · obtain ⟨_, s1, h1, h2⟩ := bind_ok.mp h
      rw [(resume_ok h2).lives]
      obtain ⟨path, hpath, hout⟩ := sysExecv_ok h1
      have hcmd : execCommand s = command path := by
        unfold execCommand
        rw [hpath]
        rfl
      unfold ending
      rw [hcmd]
      generalize command path = c at hout
      rcases c with - | on | - | - | n
      · have hout : Serves s s1 := hout
        rw [hout.lives]
        exact LStep.idle
      · exact hdone hout
      · exact hdone hout
      · exact hdone hout
      · have hout : Execs E n s s1 := hout
        rw [hout.lives hn]
        exact LStep.exec

end Dispatch

/-- How a trap with these registers ends a process. -/
def trapEnding (s : KState) (regs : Registers) : Ending :=
  ending (saved regs s) (trapOf regs.intno)

/-- Every trap that returns is a step of the life cycle. -/
theorem exception_lives (hn : Numbered s) (h : exception E regs s = (.ok (), s')) :
    LStep s.current s.lives (trapEnding s regs) s'.lives := by
  obtain ⟨s1, hin, hdisp⟩ := exception_dispatch h
  have hserve := hin.serves
  have hstep := dispatch_lives (hserve.numbered hn) hdisp
  rw [hserve.current, hserve.lives] at hstep
  obtain ⟨_, _, _, _, _, rfl⟩ := hin.rest.exists_eq
  exact hstep

-- ==== runs

/-- The running process can run, and no process is its own parent. -/
structure Sane (s : KState) : Prop where
  running : (s.lives s.current).state = .runnable
  apart : ∀ i : Int, 1 ≤ i → i < 16 → (s.lives i).parent ≠ i

theorem killLives_parent (pid i : Int) (L : Int → Life) :
    (killLives pid L i).parent = (L i).parent ∧ (killLives pid L i).waitPid = (L i).waitPid := by
  unfold killLives
  split
  · exact ⟨rfl, rfl⟩
  · split <;> exact ⟨rfl, rfl⟩

theorem LStep.apart {e : Ending} (h : LStep cur L e L')
    (hcur : (L cur).state = .runnable) (hs : ∀ i : Int, 1 ≤ i → i < 16 → (L i).parent ≠ i) :
    ∀ i : Int, 1 ≤ i → i < 16 → (L' i).parent ≠ i := by
  have hsame : ∀ (c : Int) (l : Life), l.parent = (L c).parent →
      ∀ i : Int, 1 ≤ i → i < 16 → (Function.update L c l i).parent ≠ i := by
    intro c l hl i h1 h16
    by_cases hi : i = c
    · subst hi
      rw [Function.update_self, hl]
      exact hs i h1 h16
    · rw [Function.update_of_ne hi]
      exact hs i h1 h16
  cases h with
  | idle => exact hs
  | forget => exact hsame _ _ rfl
  | block => exact hsame _ _ rfl
  | exec => exact hsame _ _ rfl
  | fault => exact hsame _ _ rfl
  | kill =>
    intro i h1 h16
    rw [(killLives_parent _ i L).1]
    exact hs i h1 h16
  | @fork c _ _ hfree =>
    intro i h1 h16
    by_cases hi : i = c
    · subst hi
      rw [Function.update_self]
      rintro rfl
      rw [hcur] at hfree
      cases hfree
    · rw [Function.update_of_ne hi]
      exact hs i h1 h16

theorem Booted.sane (h : Booted E s) : Sane s := by
  have ht := h.bootTable
  refine ⟨?_, fun i h1 h16 => ?_⟩
  · rw [ht.current]
    exact (ht.entry 1 (by decide) (by decide)).state
  · have hparent : (s.lives i).parent = 0 := (ht.entry i (by omega) h16).parent
    omega

theorem Sane.step (hs : Sane s) (hn : Numbered s) (h : KStep E s ev s') : Sane s' := by
  cases h with
  | user _ => exact ⟨hs.running, hs.apart⟩
  | trap h =>
    obtain ⟨s1, s2, hin, hact, hout⟩ := exception_act h
    refine ⟨?_, (exception_lives hn h).apart hs.running hs.apart⟩
    rw [hout.lives]
    exact hout.running

/-- What holds at boot and is kept by every step that meets `C`, with the
life cycle in order. -/
theorem Reached.induct_sane {C : KState → Event → Prop} {P : KState → Prop}
    (hboot : ∀ s, Booted E s → P s)
    (hstep : ∀ s ev s', Numbered s → Sane s → C s ev → P s → KStep E s ev s' → P s')
    (h : Reached E C s) : Sane s ∧ P s := by
  refine (h.induct (P := fun s => Sane s ∧ P s) (fun s hs => ⟨hs.sane, hboot s hs⟩) ?_).2
  intro s ev s' hn hC hs hev
  exact ⟨hs.1.step hn hev, hstep s ev s' hn hs.1 hC hs.2 hev⟩

theorem Reached.sane {C : KState → Event → Prop} (h : Reached E C s) : Sane s :=
  (h.induct_sane (fun _ _ => trivial) fun _ _ _ _ _ _ _ _ => trivial).1

end RojocOS.Kernel
