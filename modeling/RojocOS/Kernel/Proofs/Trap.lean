/-
One trap, from the saved registers to the process that runs next.

The way into the kernel stores the registers, checks the tables and
polls the keyboard (`Entered`); then comes one `Act`; the way out polls
the keyboard and picks a process that is runnable (`Resumed`). Neither
end touches memory, pages or the rest of the process table.
-/
import RojocOS.Kernel.Proofs.ProcTable

namespace RojocOS.Kernel

open Prog

variable {E : KEnv} {s s' s'' : KState} {regs : Registers} {n pt : Nat} {pid : Int}
variable {u : Unit} {t : Trap} {s₁ : KState}

-- ==== ends

/-- The keyboard was polled or the clock went on, and nothing else
happened. -/
def Idle (s s' : KState) : Prop :=
  s' = { s with
    polls := s'.polls, stdinBuffer := s'.stdinBuffer, stdinNext := s'.stdinNext
    stdinEnd := s'.stdinEnd, ticks := s'.ticks }

theorem Idle.refl (s : KState) : Idle s s := rfl

theorem Idle.trans (h : Idle s s') (h' : Idle s' s'') : Idle s s'' := by
  unfold Idle at *
  rw [h', h]

theorem Idle.exists_eq (h : Idle s s') : ∃ polls buffer next last ticks, s' = { s with
    polls := polls, stdinBuffer := buffer, stdinNext := next, stdinEnd := last
    ticks := ticks } :=
  ⟨_, _, _, _, _, h⟩

/-- The process table and the accounts after it. -/
theorem Idle.same (h : Idle s s') : s'.processes = s.processes ∧ s'.current = s.current
    ∧ s'.pageinfo = s.pageinfo ∧ s'.heapPages = s.heapPages ∧ s'.mem = s.mem := by
  rw [h]
  exact ⟨rfl, rfl, rfl, rfl, rfl⟩

theorem Idle.calm (h : Idle s s') : Calm s s' := by
  obtain ⟨h1, h2, h3, h4, -⟩ := h.same
  exact Calm.of_same h3 h4 h1 h2

theorem checkKeyboardPush_idle : Keeps Idle (checkKeyboardPush E) := by
  have hbind : ∀ {α β : Type} {x : KM α} {f : α → KM β}, Keeps Idle x →
      (∀ a, Keeps Idle (f a)) → Keeps Idle (x >>= f) := fun hx hf =>
    Keeps.bind (R := Idle) (fun h h' => h.trans h') hx hf
  refine hbind ?_ fun c => Keeps.ite ?_ (Keeps.pure Idle.refl _)
  · refine hbind Idle.refl fun s => hbind (fun _ => rfl) fun _ => ?_
    refine hbind (Keeps.failIf Idle.refl _ _) fun _ => ?_
    exact hbind (Keeps.failIf Idle.refl _ _) fun _ => Keeps.pure Idle.refl _
  · refine hbind (fun _ => rfl) fun _ => hbind Idle.refl fun s => ?_
    exact Keeps.assert Idle.refl _

/-- `set_pagetable` only looks. -/
theorem setPagetable_state (h : setPagetable E pt s = (.ok u, s')) : s' = s := by
  obtain ⟨-, h⟩ := assert_bind_ok h
  rw [get_bind] at h
  obtain ⟨-, h⟩ := assert_bind_ok h
  obtain ⟨-, h⟩ := assert_bind_ok h
  obtain ⟨-, h⟩ := assert_bind_ok h
  exact (assert_ok.mp h).2

theorem run_ok (h : run E pid s = (.ok u, s')) :
    s' = { s with current := pid } ∧ (s.processes pid).state = .runnable := by
  have h2 := bind_step h rfl
  obtain ⟨hrun, h4⟩ := assert_bind_ok h2
  have h6 := bind_step h4 rfl
  exact ⟨setPagetable_state h6, hrun⟩

/-- A process was picked to run. -/
structure Resumed (s s' : KState) : Prop where
  rest : Idle { s with current := s'.current } s'
  running : (s.processes s'.current).state = .runnable
  who : s'.current = s.current ∨ (0 ≤ s'.current ∧ s'.current < 16)

theorem Resumed.processes (h : Resumed s s') : s'.processes = s.processes :=
  h.rest.same.1

theorem scheduleLoop_ok : ∀ {pid s u}, scheduleLoop E n pid s = (.ok u, s') →
    Resumed s s' := by
  induction n with
  | zero =>
    intro pid s u h
    cases h
  | succ n ih =>
    intro pid s u h
    rw [scheduleLoop, get_bind] at h
    by_cases hrun : (s.processes ((pid + 1) % 16)).state = .runnable
    · rw [if_pos hrun] at h
      obtain ⟨rfl, -⟩ := run_ok h
      refine ⟨rfl, hrun, .inr ⟨?_, ?_⟩⟩
      · exact Int.emod_nonneg _ (by decide)
      · exact Int.emod_lt_of_pos _ (by decide)
    · rw [if_neg hrun] at h
      obtain ⟨_, s₁, h1, h2⟩ := bind_ok.mp h
      have hidle : Idle s s₁ := checkKeyboardPush_idle.of_run h1
      have hres := ih h2
      obtain ⟨hp, hc, -⟩ := hidle.same
      refine ⟨?_, hp ▸ hres.running, hc ▸ hres.who⟩
      have hrest := hres.rest
      unfold Idle at *
      rw [hrest, hidle]

theorem schedule_ok (h : schedule E s = (.ok u, s')) : Resumed s s' := by
  have h2 := bind_step h rfl
  exact scheduleLoop_ok h2

theorem resume_ok (h : resume E s = (.ok u, s')) : Resumed s s' := by
  have h2 := bind_step h rfl
  by_cases hrun : s.cur.state = .runnable
  · rw [if_pos hrun] at h2
    obtain ⟨rfl, hst⟩ := run_ok h2
    exact ⟨rfl, hst, .inl rfl⟩
  · rw [if_neg hrun] at h2
    exact schedule_ok h2

-- ==== dispatch

/-- A handler and the way out behind it. -/
theorem bind_resume_ok {x : KM Unit} (hx : ∀ s₁, x s = (.ok (), s₁) → Act E t s s₁)
    (h : (x >>= fun _ => resume E) s = (.ok u, s')) :
    ∃ s₁, Act E t s s₁ ∧ Resumed s₁ s' := by
  obtain ⟨_, s₁, h1, h2⟩ := bind_ok.mp h
  exact ⟨s₁, hx s₁ h1, resume_ok h2⟩

theorem dispatch_act (h : dispatch E t s = (.ok u, s')) :
    ∃ s₁, Act E t s s₁ ∧ Resumed s₁ s' := by
  have hS := Serves.service (E := E)
  have hserve : ∀ {x : KM Unit} {t : Trap}, Keeps Serves x → ∀ s₁, x s = (.ok (), s₁) →
      Act E t s s₁ := fun hx s₁ h1 => Act.serve (hx.of_run h1)
  cases t with
  | timer =>
    have h2 := bind_step h rfl
    have hcalm : Calm s { s with ticks := u32 (s.ticks + 1) } :=
      Calm.of_same rfl rfl rfl rfl
    exact ⟨_, Act.serve hcalm.serves, schedule_ok h2⟩
  | yield => exact ⟨s, Act.serve (Serves.refl s), schedule_ok h⟩
  | panic => cases h
  | unexpected => cases h
  | pagefault => exact bind_resume_ok (fun _ => pageFault_act) h
  | read => exact bind_resume_ok (hserve hS.sysRead) h
  | write => exact bind_resume_ok (hserve sysWrite_serves) h
  | «open» => exact bind_resume_ok (hserve hS.sysOpen) h
  | hello => exact bind_resume_ok (hserve sysHello_serves) h
  | forget => exact bind_resume_ok (fun _ => sysForget_act) h
  | wait => exact bind_resume_ok (fun _ => sysWait_act) h
  | keybord => exact bind_resume_ok (hserve hS.sysKeybord) h
  | pageAlloc => exact bind_resume_ok (hserve hS.sysPageAlloc) h
  | getpid => exact bind_resume_ok (hserve hS.sysGetpid) h
  | fork => exact bind_resume_ok (fun _ => sysFork_act) h
  | execv => exact bind_resume_ok (fun _ => sysExecv_act) h
  | exit => exact bind_resume_ok (fun _ => sysExit_act) h
  | kill => exact bind_resume_ok (fun _ => sysKill_act) h
  | getcwd => exact bind_resume_ok (hserve hS.sysGetcwd) h
  | chdir => exact bind_resume_ok (hserve hS.sysChdir) h
  | mkdir => exact bind_resume_ok (hserve hS.sysMkdir) h
  | getrandom => exact bind_resume_ok (hserve hS.sysGetrandom) h
  | listdir => exact bind_resume_ok (hserve hS.sysListdir) h
  | touch => exact bind_resume_ok (hserve hS.sysTouch) h
  | remove => exact bind_resume_ok (hserve hS.sysRemove) h

-- ==== exception

/-- The state with the registers of the trap saved. -/
def saved (regs : Registers) (s : KState) : KState :=
  s.updProc s.current fun p => { p with registers := regs }

theorem saved_serves (regs : Registers) (s : KState) : Serves s (saved regs s) :=
  Serves.own _ (fun _ => ⟨rfl, rfl, rfl, rfl, rfl, rfl⟩) fun _ => .inl rfl

theorem saved_registers (regs : Registers) (s : KState) :
    (saved regs s).cur.registers = regs := by
  have h := s.updProc_same s.current fun p => { p with registers := regs }
  exact congrArg Proc.registers h

/-- The trap has reached its handler. -/
structure Entered (E : KEnv) (regs : Registers) (s s₁ : KState) : Prop where
  rest : Idle (saved regs s) s₁
  checked : checkVirtualMemory E (saved regs s) = (.ok (), saved regs s)

theorem Entered.serves (h : Entered E regs s s₁) : Serves s s₁ :=
  (saved_serves regs s).trans h.rest.calm.serves

theorem Entered.registers (h : Entered E regs s s₁) : s₁.cur.registers = regs := by
  obtain ⟨hp, hc, -⟩ := h.rest.same
  have hcur : s₁.cur = (saved regs s).cur := by
    unfold KState.cur
    rw [hp, hc]
  rw [hcur, saved_registers]

theorem enter_ok (h : enter regs s = (.ok u, s')) : s' = saved regs s := by
  have h2 := bind_step h rfl
  obtain ⟨-, h4⟩ := failIf_bind_ok h2
  cases h4
  rfl

theorem checkVirtualMemory_state (h : checkVirtualMemory E s = (.ok u, s')) : s' = s := by
  have h2 := bind_step h rfl
  obtain ⟨-, h4⟩ := assert_bind_ok h2
  obtain ⟨-, h6⟩ := assert_bind_ok h4
  obtain ⟨-, h8⟩ := assert_bind_ok h6
  obtain ⟨-, h10⟩ := assert_bind_ok h8
  exact (assert_ok.mp h10).2

/-- A fault in the kernel does not come back. -/
theorem dispatch_kernel_fault (ht : t = .pagefault)
    (herr : s.cur.registers.err / 4 % 2 = 0) : dispatch E t s ≠ (.ok u, s') := by
  subst ht
  intro h
  obtain ⟨_, s₁, h1, h2⟩ := bind_ok.mp h
  have h4 := bind_step h1 rfl
  obtain ⟨_, s3, h5, h6⟩ := bind_ok.mp h4
  exact (failIf_ok h5).1 herr

/-- An exception that returns got to its handler. -/
theorem exception_dispatch (h : exception E regs s = (.ok (), s')) :
    ∃ s₁, Entered E regs s s₁ ∧ dispatch E (trapOf regs.intno) s₁ = (.ok (), s') := by
  obtain ⟨_, s₁, h1, h2⟩ := bind_ok.mp h
  obtain rfl := enter_ok h1
  obtain ⟨_, s2, h3, h4⟩ := bind_ok.mp h2
  obtain rfl := setPagetable_state h3
  obtain ⟨_, s3, h5, h6⟩ := bind_ok.mp h4
  obtain ⟨_, s4, h7, h8⟩ := bind_ok.mp h6
  have hidle : Idle s3 s4 := checkKeyboardPush_idle.of_run h7
  by_cases hcheck : regs.intno ≠ 14 ∨ regs.err / 4 % 2 = 1
  · rw [when_of hcheck] at h5
    obtain rfl := checkVirtualMemory_state h5
    exact ⟨s4, ⟨hidle, h5⟩, h8⟩
  · -- the self-check is left out for a fault in the kernel only
    rw [when_of_not hcheck] at h5
    cases h5
    have hint : regs.intno = 14 := by
      by_contra hne
      exact hcheck (.inl hne)
    have herr : regs.err / 4 % 2 = 0 := by omega
    obtain ⟨hp, hc, -⟩ := hidle.same
    have hcur : s4.cur.registers = regs := by
      rw [KState.cur, hp, hc]
      exact saved_registers regs s
    refine absurd h8 (dispatch_kernel_fault ?_ ?_)
    · rw [hint]
      rfl
    · rw [hcur]
      exact herr

/-- An exception that returns to user mode. -/
theorem exception_act (h : exception E regs s = (.ok (), s')) :
    ∃ s₁ s2, Entered E regs s s₁ ∧ Act E (trapOf regs.intno) s₁ s2 ∧ Resumed s2 s' := by
  obtain ⟨s₁, hin, hdisp⟩ := exception_dispatch h
  obtain ⟨s2, hact, hres⟩ := dispatch_act hdisp
  exact ⟨s₁, s2, hin, hact, hres⟩

end RojocOS.Kernel
