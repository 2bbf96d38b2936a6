/-
Waits that are over.

`process_kill` takes a parent's `p_wait_pid` for a wait that goes on. It is
never reset: a parent that was killed while it waited, or was woken long
ago, still has it, and so does the address it gave for the exit code.
`Struck` is what the wake-up changes; the kill is precise if whoever is
struck waits for it now. A step brings a broken process
back exactly if it is a kill whose parent is broken
(`LStep.revives_iff`).
-/
import RojocOS.Kernel.Proofs.WakeUp

namespace RojocOS.Kernel

open ByteMap

variable {E : KEnv} {s s' : KState} {cur pid i o : Int} {L L' : Int → Life} {e : Ending}
  {a c v x : Nat} {l : Life} {m : ByteMap}

-- ==== one kill

/-- The state of process `i`, or memory of it, has changed. -/
def Disturbed (s s' : KState) (i : Int) : Prop :=
  (s'.processes i).state ≠ (s.processes i).state
    ∨ ∃ x, (s.pageinfo (x / 4096)).owner = i ∧ s'.mem x ≠ s.mem x

/-- Only processes that wait for `pid` are disturbed, and `pid` itself. -/
def Precise (s s' : KState) (pid : Int) : Prop :=
  ∀ i : Int, 1 ≤ i → i < 16 → i ≠ pid → Disturbed s s' i → WaitsFor s.lives i pid

/-- The exit code of `pid` where its parent wants it. -/
def delivered (s : KState) (pid : Int) : ByteMap :=
  store s.mem (s.processes (s.processes pid).parent).waitExitCode 4
    (reg64 (s.processes pid).exitCode)

/-- The wake-up for `pid` is something new for process `i`: it is the
parent and does not run, or the exit code changes a byte of it. -/
def Struck (s : KState) (pid i : Int) : Prop :=
  (i = (s.processes pid).parent ∧ (s.processes i).state ≠ .runnable)
    ∨ ∃ x, (s.pageinfo (x / 4096)).owner = i ∧ delivered s pid x ≠ s.mem x

theorem processKill_mem (h : processKill E pid s = (.ok (), s')) :
    s'.mem = if Wakes s pid then delivered s pid else s.mem := by
  rcases processKill_ok h with ⟨hw, -, rfl⟩ | ⟨hw, rfl⟩
  · rw [if_pos hw]
    unfold delivered
    have hcode : ∀ i, ((killed pid s).processes i).waitExitCode = (s.processes i).waitExitCode
        ∧ ((killed pid s).processes i).exitCode = (s.processes i).exitCode := by
      intro i
      rw [killed_processes]
      split <;> exact ⟨rfl, rfl⟩
    rw [← (hcode _).1, ← (hcode pid).2]
    rfl
  · rw [if_neg hw]
    rfl

/-- What a kill changes of another process. -/
theorem processKill_disturbs (h : processKill E pid s = (.ok (), s'))
    (hne : i ≠ pid) : Disturbed s s' i ↔ Wakes s pid ∧ Struck s pid i := by
  have hproc := processKill_processes h i
  have hmem := processKill_mem h
  unfold Disturbed Struck
  by_cases hw : Wakes s pid
  · rw [if_pos hw] at hmem
    rw [hmem]
    refine Iff.trans (or_congr_left ?_) (and_iff_right hw).symm
    by_cases hi : i = (s.processes pid).parent
    · rw [if_pos ⟨hw, hi⟩] at hproc
      rw [hproc]
      exact ⟨fun hx => ⟨hi, Ne.symm hx⟩, fun hx => Ne.symm hx.2⟩
    · rw [if_neg fun hx => hi hx.2, if_neg hne] at hproc
      rw [hproc]
      exact ⟨fun hx => absurd rfl hx, fun hx => absurd hx.1 hi⟩
  · rw [if_neg hw] at hmem
    rw [if_neg fun hx => hw hx.1, if_neg hne] at hproc
    rw [hmem, hproc]
    refine ⟨fun hx => ?_, fun hx => absurd hx.1 hw⟩
    rcases hx with hx | ⟨x, -, hx⟩ <;> exact absurd rfl hx

-- ==== revivals

/-- A broken process can run again. -/
def Revives (L L' : Int → Life) : Prop :=
  ∃ i : Int, 1 ≤ i ∧ i < 16 ∧ (L i).state = .broken ∧ (L' i).state = .runnable

/-- The step kills a process whose parent has waited for it and is
broken. -/
def StaleParent (L : Int → Life) : Ending → Prop
  | .kill pid => WokenBy L pid ∧ (L pid).parent < 16 ∧ (L (L pid).parent).state = .broken
  | _ => False

theorem not_revives_update
    (h : (L o).state = .broken → l.state ≠ .runnable) : ¬ Revives L (Function.update L o l) := by
  rintro ⟨i, -, -, hb, hr⟩
  by_cases hi : i = o
  · subst hi
    rw [Function.update_self] at hr
    exact h hb hr
  · rw [Function.update_of_ne hi, hb] at hr
    cases hr

theorem revives_kill_iff : Revives L (killLives pid L) ↔ StaleParent L (.kill pid) := by
  constructor
  · rintro ⟨i, -, h16, hb, hr⟩
    unfold killLives at hr
    by_cases hw : WokenBy L pid ∧ i = (L pid).parent
    · exact ⟨hw.1, hw.2 ▸ h16, hw.2 ▸ hb⟩
    · rw [if_neg hw] at hr
      split at hr
      · cases hr
      · rw [hb] at hr
        cases hr
  · rintro ⟨hw, h16, hb⟩
    refine ⟨(L pid).parent, hw.1, h16, hb, ?_⟩
    unfold killLives
    rw [if_pos ⟨hw, rfl⟩]

/-- Only such a kill brings a process back. -/
theorem LStep.revives_iff (h : LStep cur L e L') (hcur : (L cur).state = .runnable) :
    Revives L L' ↔ StaleParent L e := by
  have hrun : ∀ {P : Prop}, (L cur).state = .broken → P := by
    intro P hb
    rw [hcur] at hb
    cases hb
  cases h with
  | idle =>
    refine iff_of_false ?_ id
    rintro ⟨i, -, -, hb, hr⟩
    rw [hb] at hr
    cases hr
  | forget => exact iff_of_false (not_revives_update fun _ => nofun) id
  | block => exact iff_of_false (not_revives_update fun _ => nofun) id
  | fork _ _ hfree =>
    refine iff_of_false (not_revives_update fun hb => ?_) id
    rw [hfree] at hb
    cases hb
  | exec => exact iff_of_false (not_revives_update hrun) id
  | fault => exact iff_of_false (not_revives_update fun _ => nofun) id
  | kill => exact revives_kill_iff

/-- The trap kills a process whose parent has waited for it and is
broken. -/
def StaleKill (s : KState) : Event → Prop
  | .user _ => False
  | .trap regs => StaleParent s.lives (trapEnding s regs)

-- ==== a run

/-- Only that page changes. -/
theorem CodePlace.changed (h : CodePlace E a)
    (hx : store m a 4 v x ≠ m x) : x / 4096 = a / 4096 := by
  by_contra hout
  refine hx (store_of_not_mem fun hin => hout ?_)
  obtain ⟨d, rfl⟩ := Nat.exists_eq_add_of_le hin.1
  exact h.page d (by omega)

/-- The process that is killed has a broken parent, which had waited for
it; the page for the exit code is free. -/
theorem Stage.kill_stale (h : Stage E cur L s) (hq : Silent E) (h1 : 1 ≤ c)
    (h16 : c < 16) (hne : (c : Int) ≠ cur) (hapart : (L c).parent ≠ cur)
    (hpar : (L c).parent < 16) (hw : WokenBy L c)
    (hplace : CodePlace E (s.processes (L c).parent).waitExitCode)
    (hfree : (s.pageinfo ((s.processes (L c).parent).waitExitCode / 4096)).owner = 0) :
    ∃ s', exception E { intno := 65, rdi := c } s = (.ok (), s')
      ∧ ∀ i : Int, 0 ≤ i → i < 16 → s'.lives i = killLives c L i := by
  obtain ⟨role, used, hinv⟩ := h.inv
  generalize hregs : ({ intno := 65, rdi := c } : Registers) = regs
  generalize ht0 : (setRax 0 (trapped regs s)).2 = t
  have hminor : Minor s t := ht0 ▸ (trapped_minor regs s).trans (setRax_minor 0 _)
  have ht : KInv E True True role used t := hinv.minor hminor
  have hlives : ∀ i : Int, 0 ≤ i → i < 16 → t.lives i = L i := by
    intro i h0 hi
    rw [← ht0, setRax_lives]
    exact h.in_kernel regs i h0 hi
  have hparent : (t.processes c).parent = (L c).parent :=
    congrArg Life.parent (hlives c (by omega) (by omega))
  have hcode : (t.processes (t.processes c).parent).waitExitCode
      = (s.processes (L c).parent).waitExitCode := by
    rw [hparent]
    exact (hminor.role _).waitExitCode
  have hw' : Wakes t c := (wokenBy_congr hlives (by omega) (by omega) hpar).mpr hw
  have hkill : processKill E c t
      = (.ok (), woken c (t.processes c).parent (killed c t)) := by
    rw [processKill_released (ht.counted (by omega)), if_pos hw'.1,
      Prog.assert_bind (hparent ▸ hpar), if_pos hw'.2]
    have hcode' : ((killed c t).processes (t.processes c).parent).waitExitCode
        = (s.processes (L c).parent).waitExitCode := by
      rw [killed_processes, ← hcode]
      split <;> rfl
    unfold wakeParent
    rw [Prog.get_bind, hcode', Prog.bind_of_ok (hplace.guard _)]
    rfl
  generalize hu : woken c (t.processes c).parent (killed c t) = u at hkill
  have hsys : sysKill E (trapped regs s) = (.ok (), u) := by
    have hrax : setRax 0 (trapped regs s) = (.ok (), t) := ht0 ▸ rfl
    have hc : i32 t.cur.registers.rdi = c := by
      rw [← ht0, setRax_cur, trapped_cur, ← hregs]
      show i32 c = c
      unfold i32 u32
      omega
    unfold sysKill
    rw [Prog.bind_of_ok hrax, Prog.get_bind, hc]
    exact hkill
  -- the kernel goes on as if the dead parent had been left alone
  have hmem : u.mem = delivered t c := (processKill_mem hkill).trans (if_pos hw')
  have hdead : KInv E True True (role.drop c) used (killed c t) := ht.killed (by omega)
  have hk : KInv E True True (role.drop c) used { killed c t with mem := u.mem } := by
    refine hdead.write_plain fun x hx => ?_
    have hpage : x / 4096 = (s.processes (L c).parent).waitExitCode / 4096 := by
      rw [hmem] at hx
      unfold delivered at hx
      rw [hcode] at hx
      exact hplace.changed hx
    have hown : (t.pageinfo (x / 4096)).owner = 0 := by
      rw [hpage, hminor.mach.pageinfo]
      exact hfree
    have hown' : ((killed c t).pageinfo (x / 4096)).owner = 0 := by
      refine (congrArg PageInfo.owner (if_neg fun hx' => ?_)).trans hown
      omega
    refine ⟨?_, by omega⟩
    rcases hr : role.drop c (x / 4096) with - | p
    · rfl
    · obtain ⟨hinfo, hpos⟩ := hdead.mach.own _ _ hr
      rw [hinfo] at hown'
      exact absurd hown' hpos
  have hulives : ∀ i : Int, 0 ≤ i → i < 16 → u.lives i = killLives c L i := by
    intro i h0 hi
    rw [processKill_lives hkill]
    exact killLives_congr hlives (by omega) (by omega) hpar i h0 hi
  have hcurrent : u.current = cur := by
    rw [(processKill_current hkill).1, hminor.current]
    exact h.current
  have hcur : u.processes cur = t.processes cur := by
    rw [processKill_processes hkill, if_neg fun hx => ?_, if_neg (Ne.symm hne)]
    rw [hparent] at hx
    exact hapart hx.2.symm
  have hrun : (u.processes cur).state = .runnable := by
    have hr := h.range
    rw [hcur]
    exact (congrArg Life.state (hlives cur (by omega) hr.2)).trans h.running
  have hkcur : (killed c t).processes cur = t.processes cur := by
    rw [killed_processes, if_neg (Ne.symm hne)]
  refine ⟨u, ?_, hulives⟩
  rw [hinv.exception_eq hq h.live, ← hregs]
  show (sysKill E >>= fun _ => resume E) _ = _
  rw [hregs, Prog.bind_of_ok hsys]
  have hkc : (killed c t).current = cur := hminor.current.trans h.current
  have hr := h.range
  refine hk.resume_of_mem (hcurrent.trans hkc.symm) ⟨?_, ?_, .inl ?_⟩ rfl ?_ ?_
  · show 1 ≤ (killed c t).current
    omega
  · show (killed c t).current < 16
    omega
  · show ((killed c t).processes (killed c t).current).state = .runnable
    rw [hkc, hkcur, ← hcur]
    exact hrun
  · show (u.processes u.current).pagetable
      = ((killed c t).processes (killed c t).current).pagetable
    rw [hcurrent, hkc, hcur, hkcur]
  · show (u.processes u.current).state = .runnable
    rw [hcurrent]
    exact hrun

end RojocOS.Kernel
