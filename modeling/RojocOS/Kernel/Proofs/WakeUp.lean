/-
Lost wake-ups.

A process that waits is woken by `process_kill` of the child it waits for,
if it is that child's parent. A page fault ends the child without
`process_kill`, and a wait for a slot that is free can outlive the slot's
next process, whose parent is another one; in both cases the waiting
process sleeps on beside a broken child. `Heeded` rules out these two
endings and nothing else: a step that ends a process loses a wake-up
exactly if it is not heeded (`LStep.noLost_iff`).
-/
import RojocOS.Kernel.Proofs.LifeCalls

namespace RojocOS.Kernel

variable {E : KEnv} {s s' : KState} {cur pid c o p : Int} {L L' : Int → Life} {e : Ending}
  {l : Life}

/-- Process `p` waits for `c`. -/
def WaitsFor (L : Int → Life) (p c : Int) : Prop :=
  1 ≤ p ∧ p < 16 ∧ (L p).state = .blocked ∧ (L p).waitPid = c

/-- Nobody waits for a process that has ended. -/
def NoLost (L : Int → Life) : Prop :=
  ∀ p c : Int, 0 ≤ c → c < 16 → WaitsFor L p c → (L c).state ≠ .broken

/-- Whoever waits for a process that ends will be told: nobody waits for
one that faults, and only its parent for one that is killed. -/
def Heeded (cur : Int) (L : Int → Life) : Ending → Prop
  | .none => True
  | .forget _ => True
  | .fault => ∀ p, WaitsFor L p cur → p = cur
  | .kill pid => 0 ≤ pid → pid < 16 → ∀ p, WaitsFor L p pid → p ≠ pid → (L pid).parent = p

-- ==== steps

/-- Who waits where one entry has changed. -/
theorem waitsFor_update (hp : p ≠ o) :
    WaitsFor (Function.update L o l) p c ↔ WaitsFor L p c := by
  unfold WaitsFor
  rw [Function.update_of_ne hp]

/-- An entry that does not wait, and is not broken, loses nobody. -/
theorem NoLost.update (h : NoLost L) (hwait : l.state ≠ .blocked)
    (hend : l.state ≠ .broken) : NoLost (Function.update L o l) := by
  intro p c h0 h16 hw
  by_cases hp : p = o
  · subst hp
    have hst := hw.2.2.1
    rw [Function.update_self] at hst
    exact absurd hst hwait
  · by_cases hc : c = o
    · subst hc
      rw [Function.update_self]
      exact hend
    · rw [Function.update_of_ne hc]
      exact h p c h0 h16 ((waitsFor_update hp).mp hw)

theorem NoLost.block (h : NoLost L) (hst : (L c).state ≠ .broken) :
    NoLost (Function.update L cur { L cur with state := .blocked, waitPid := c }) := by
  intro p d h0 h16 hw
  by_cases hd : d = cur
  · subst hd
    rw [Function.update_self]
    exact fun hx => by cases hx
  · rw [Function.update_of_ne hd]
    by_cases hp : p = cur
    · subst hp
      have hwait := hw.2.2.2
      rw [Function.update_self] at hwait
      exact hwait ▸ hst
    · exact h p d h0 h16 ((waitsFor_update hp).mp hw)

/-- A fault. -/
theorem NoLost.fault_iff (h : NoLost L) (h1 : 0 ≤ cur) (h16 : cur < 16) :
    NoLost (Function.update L cur { L cur with state := .broken }) ↔ Heeded cur L .fault := by
  constructor
  · intro h' p hw
    by_contra hp
    have hlost := h' p cur h1 h16 ((waitsFor_update hp).mpr hw)
    rw [Function.update_self] at hlost
    exact hlost rfl
  · intro hheed p c hc0 hc16 hw
    by_cases hp : p = cur
    · subst hp
      have hst := hw.2.2.1
      rw [Function.update_self] at hst
      cases hst
    · have hw' := (waitsFor_update hp).mp hw
      by_cases hc : c = cur
      · exact absurd (hheed p (hc ▸ hw')) hp
      · rw [Function.update_of_ne hc]
        exact h p c hc0 hc16 hw'

/-- Who still waits behind a kill. -/
theorem killLives_waits : WaitsFor (killLives pid L) p c
    ↔ WaitsFor L p c ∧ p ≠ pid ∧ ¬ (WokenBy L pid ∧ p = (L pid).parent) := by
  unfold WaitsFor
  rw [(killLives_parent pid p L).2]
  unfold killLives
  by_cases hw : WokenBy L pid ∧ p = (L pid).parent
  · rw [if_pos hw]
    exact ⟨fun hx => (nomatch hx.2.2.1), fun hx => absurd hw hx.2.2⟩
  · rw [if_neg hw]
    by_cases hp : p = pid
    · rw [if_pos hp]
      exact ⟨fun hx => (nomatch hx.2.2.1), fun hx => absurd hp hx.2.1⟩
    · rw [if_neg hp]
      exact ⟨fun hx => ⟨hx, hp, hw⟩, fun hx => hx.1⟩

/-- A kill. -/
theorem NoLost.kill_iff (h : NoLost L)
    (hapart : ∀ i : Int, 1 ≤ i → i < 16 → (L i).parent ≠ i) :
    NoLost (killLives pid L) ↔ Heeded cur L (.kill pid) := by
  constructor
  · intro h' h0 h16 p hw hne
    by_contra hpar
    have hself : ¬ (WokenBy L pid ∧ pid = (L pid).parent) := by
      rintro ⟨⟨h1, -⟩, heq⟩
      exact hapart pid (by omega) h16 heq.symm
    have hlost := h' p pid h0 h16
      (killLives_waits.mpr ⟨hw, hne, fun hx => hpar hx.2.symm⟩)
    unfold killLives at hlost
    rw [if_neg hself, if_pos rfl] at hlost
    exact hlost rfl
  · intro hheed p c h0 h16 hwaits hbroken
    obtain ⟨hw, hne, hnot⟩ := killLives_waits.mp hwaits
    unfold killLives at hbroken
    by_cases hc : c = pid
    · -- the parent would have been woken
      subst hc
      have hpar := hheed h0 h16 p hw hne
      refine hnot ⟨⟨?_, ?_⟩, hpar.symm⟩
      · rw [hpar]
        exact hw.1
      · rw [hpar]
        exact hw.2.2.2
    · rw [if_neg hc] at hbroken
      split at hbroken
      · cases hbroken
      · exact h p c h0 h16 hw hbroken

/-- A step loses a wake-up exactly if it ends a process unheeded. -/
theorem LStep.noLost_iff (h : LStep cur L e L') (hs : NoLost L) (h1 : 1 ≤ cur)
    (h16 : cur < 16) (hapart : ∀ i : Int, 1 ≤ i → i < 16 → (L i).parent ≠ i) :
    NoLost L' ↔ Heeded cur L e := by
  cases h with
  | idle => exact iff_of_true hs trivial
  | forget => exact iff_of_true (hs.update nofun nofun) trivial
  | block _ _ hst => exact iff_of_true (hs.block hst) trivial
  | fork => exact iff_of_true (hs.update nofun nofun) trivial
  | exec => exact iff_of_true (hs.update nofun nofun) trivial
  | fault => exact hs.fault_iff (by omega) h16
  | kill => exact hs.kill_iff hapart

-- ==== runs

/-- The trap ends nobody, or is heeded. -/
def HeedsWaits (s : KState) : Event → Prop
  | .user _ => True
  | .trap regs => Heeded s.current s.lives (trapEnding s regs)

theorem Booted.noLost (h : Booted E s) : NoLost s.lives := by
  intro p c h0 h16 hw
  have hst := hw.2.2.1
  rw [h.stage.lives p (by have := hw.1; omega) hw.2.1] at hst
  unfold bootLives at hst
  split at hst <;> cases hst

/-- No wake-up is lost in a run whose steps are all heeded; and from a
state in which none is lost, a step loses one exactly if it is not. -/
theorem no_lost_wakeup_iff :
    (∀ s, Reached E HeedsWaits s → NoLost s.lives)
      ∧ ∀ C s ev s', Reached E C s → NoLost s.lives → KStep E s ev s' →
          (NoLost s'.lives ↔ HeedsWaits s ev) := by
  have hstep : ∀ {s ev s'}, Numbered s → Sane s → NoLost s.lives → KStep E s ev s' →
      (NoLost s'.lives ↔ HeedsWaits s ev) := by
    intro s ev s' hn hsane hs hev
    cases hev with
    | user _ => exact iff_of_true hs trivial
    | trap h =>
        exact (exception_lives hn h).noLost_iff hs hn.current.1 hn.current.2 hsane.apart
  refine ⟨fun s h => ?_, fun C s ev s' hr hs hev => hstep hr.numbered hr.sane hs hev⟩
  exact (h.induct_sane (fun _ hb => hb.noLost) fun s ev s' hn hsane hC hs hev =>
    (hstep hn hsane hs hev).mpr hC).2

/-- The first process of the small kernel makes a child and waits for it;
the child runs. -/
theorem patient_waits : ∃ s0 s1 s2 v, Booted patientKEnv s0
    ∧ exception patientKEnv { intno := 62 } s0 = (.ok (), s1)
    ∧ Stage patientKEnv 1 (Function.update bootLives 2 ⟨.runnable, 1, -1⟩) s1
    ∧ exception patientKEnv { intno := 57, rdi := 2, rsi := v * 4096 } s1 = (.ok (), s2)
    ∧ Stage patientKEnv 2 (Function.update (Function.update bootLives 2 ⟨.runnable, 1, -1⟩) 1
        ⟨.blocked, 0, 2⟩) s2
    ∧ CodePlace patientKEnv (s2.processes 1).waitExitCode
    ∧ (s2.pageinfo ((s2.processes 1).waitExitCode / 4096)).owner = 1 := by
  obtain ⟨s0, role, hs⟩ := patient_started
  have h0 := hs.booted.stage
  obtain ⟨root, hroot, hsmall⟩ := hs.small
  have hroom := hs.patient_room
  obtain ⟨s1, hfork, h1, -⟩ := h0.fork patient_silent (c := 2) (by decide) hroot (by omega)
  have hnext : Follows (Function.update (Function.update bootLives 2 ⟨.runnable, 1, -1⟩) 1
      ⟨.blocked, 0, 2⟩) 1 2 := ⟨0, by decide, by decide, by decide, by decide⟩
  obtain ⟨v, s2, hwait, h2, hcode⟩ := h1.wait patient_silent (c := 2) (by decide) (by decide)
    (by decide) (by decide) hnext
  exact ⟨s0, s1, s2, v, hs.booted, hfork, h1, hwait, h2, hcode⟩

theorem no_lost_wakeup_iff_fork : ∃ s s', Reached patientKEnv HeedsWaits s ∧ NoLost s.lives
    ∧ KStep patientKEnv s (.trap { intno := 62 }) s'
    ∧ (NoLost s'.lives ↔ HeedsWaits s (.trap { intno := 62 })) := by
  obtain ⟨s₀, s₁, s₂, v, hboot, hfork, -⟩ := patient_waits
  have hr : Reached patientKEnv HeedsWaits s₀ := ⟨s₀, hboot, .refl⟩
  have hs := no_lost_wakeup_iff.1 s₀ hr
  exact ⟨s₀, s₁, hr, hs, .trap hfork, no_lost_wakeup_iff.2 _ _ _ _ hr hs (.trap hfork)⟩

/-- A child that faults while its parent waits: the parent sleeps on. -/
theorem fault_loses_wakeup : ∃ s₀ s₁ s₂ s₃ v, Booted patientKEnv s₀
    ∧ exception patientKEnv { intno := 62 } s₀ = (.ok (), s₁)
    ∧ exception patientKEnv { intno := 57, rdi := 2, rsi := v * 4096 } s₁ = (.ok (), s₂)
    ∧ exception patientKEnv { intno := 14, err := 4 } s₂ = (.ok (), s₃)
    ∧ (s₃.processes 1).state = .blocked ∧ (s₃.processes 1).waitPid = 2
    ∧ (s₃.processes 2).state = .broken := by
  obtain ⟨s₀, s₁, s₂, v, hboot, hfork, -, hwait, h₂, -⟩ := patient_waits
  have hnext : Follows (Function.update (Function.update (Function.update bootLives 2
      ⟨.runnable, 1, -1⟩) 1 ⟨.blocked, 0, 2⟩) 2 ⟨.broken, 1, -1⟩) 2 5 :=
    ⟨2, by decide, by decide, by decide, by decide⟩
  obtain ⟨s₃, hfault, h₃⟩ := h₂.fault patient_silent hnext
  have hone := h₃.lives 1 (by decide) (by decide)
  have htwo := h₃.lives 2 (by decide) (by decide)
  exact ⟨s₀, s₁, s₂, s₃, v, hboot, hfork, hwait, hfault, congrArg Life.state hone,
    congrArg Life.waitPid hone, congrArg Life.state htwo⟩

end RojocOS.Kernel
