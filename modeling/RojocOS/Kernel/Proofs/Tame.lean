/-
Runs that keep the invariant.

`TameCall` says for each system call what the process must not do, because
the kernel does not look: hand over a buffer that is not one piece of its
own memory, give `execv` more arguments than fit in a page, ask for a page
at an address of the kernel, kill or forget what it should not. A run whose
calls are tame keeps the invariant (`Reached.intact`).

Which calls have to be tame depends on what is to be kept. Only with `G`
(the kernel is mapped in every table) does it matter where `page_alloc` is
asked for a page; only with `O` (owners are processes there are) does it
matter whether a forgotten process has pages left.
-/
import RojocOS.Kernel.Proofs.Buffers
import RojocOS.Kernel.Proofs.Exec
import RojocOS.Kernel.Proofs.ForkSpace
import RojocOS.Kernel.Proofs.HeapTest
import RojocOS.Kernel.Proofs.LifeCycle

namespace RojocOS.Kernel

open ByteMap Prog

variable {E : KEnv} {G O G' O' : Prop} {role : Roles} {used : List Blk} {s s' s1 : KState}
  {pid : Int} {ev : Event} {regs : Registers} {t : Trap}

-- ==== the condition

/-- If the end of `pid` wakes a process, it is another one that lives. -/
def WakesLive (s : KState) (pid : Int) : Prop :=
  Wakes s pid → (s.processes pid).parent ≠ pid ∧ s.Live (s.processes pid).parent

/-- The same for `execv` of a command: a program needs arguments that fit,
what is built in ends the process. -/
def TameExec (s : KState) : Option Command → Prop
  | none => True
  | some (.program _) => ArgsFit s
  | some _ => WakesLive s s.current

/-- The call can be served without harm. -/
def TameCall (E : KEnv) (G O : Prop) (s : KState) : Trap → Prop
  | .read => UserBuffer s (u64 s.cur.registers.rsi) (u64 s.cur.registers.rdx)
  | .write => AtHead s (u32 s.cur.registers.rdi) →
      UserBuffer s (u64 s.cur.registers.rsi) (4096 * writeBlocks s)
  | .listdir => UserBuffer s (u64 s.cur.registers.rsi) 1025
  | .getcwd => UserBuffer s (u64 s.cur.registers.rdi) (s.cur.cwd.length + 1)
  | .wait => UserBuffer s (u64 s.cur.registers.rsi) 4
  | .pageAlloc => G → ¬ E.KernelPage (vpn (u64 s.cur.registers.rdi))
  | .forget => O → ∀ pn, pn < 512 → (s.pageinfo pn).owner ≠ i32 s.cur.registers.rdi
  | .kill => 1 ≤ i32 s.cur.registers.rdi ∧ i32 s.cur.registers.rdi < 16
      ∧ WakesLive s (i32 s.cur.registers.rdi)
  | .exit => WakesLive s s.current
  | .execv => TameExec s (execCommand s)
  | _ => True

/-- The step can be taken without harm. -/
def Tame (E : KEnv) (G O : Prop) (s : KState) : Event → Prop
  | .user _ => True
  | .trap regs => TameCall E G O (saved regs s) (trapOf regs.intno)

-- ==== small handlers

theorem checkKeyboard_minor : Keeps Minor (checkKeyboard E) := by
  refine Minor.bind get_minor fun s => Minor.bind (fun _ => ?_) fun _ => ?_
  · exact Minor.of_same ⟨rfl, rfl, rfl, rfl, rfl⟩ rfl rfl
  · refine Minor.bind (Keeps.failIf Minor.refl _ _) fun _ => ?_
    exact Minor.bind (Keeps.failIf Minor.refl _ _) fun _ => Keeps.pure Minor.refl _

theorem sysKeybord_minor : Keeps Minor (sysKeybord E) := by
  refine Minor.bind checkKeyboard_minor fun c => Minor.bind get_minor fun s => ?_
  refine Keeps.ite (setRax_minor _) (Keeps.ite (setRax_minor _) ?_)
  refine Minor.bind (fun _ => ?_) fun _ => setRax_minor _
  exact Minor.of_same ⟨rfl, rfl, rfl, rfl, rfl⟩ rfl rfl

theorem sysGetrandom_minor : Keeps Minor (sysGetrandom E) := by
  refine Minor.bind get_minor fun s => Minor.bind (fun _ => ?_) fun _ => setRax_minor _
  exact Minor.of_same ⟨rfl, rfl, rfl, rfl, rfl⟩ rfl rfl

theorem sysGetpid_minor : Keeps Minor sysGetpid :=
  Minor.bind get_minor fun _ => setRax_minor _

theorem sysHello_minor : Keeps Minor (sysHello E) := by
  refine Minor.bind (fsCall_minor _) fun _ => Minor.bind (fsCall_minor _) fun _ => ?_
  exact Minor.bind (fsCall_minor _) fun _ => Keeps.pure Minor.refl _

-- ==== ends of processes

theorem WakesLive.of_role (h : WakesLive s pid)
    (hp : ∀ i, SameRole (s.processes i) (s'.processes i)) : WakesLive s' pid := by
  rintro ⟨h1, h2⟩
  rw [(hp pid).parent] at h1 h2
  rw [(hp _).waitPid] at h2
  obtain ⟨hne, hlive⟩ := h ⟨h1, h2⟩
  rw [(hp pid).parent]
  refine ⟨hne, ?_⟩
  unfold KState.Live
  rw [(hp _).state]
  exact hlive

section

variable (h : KInv E G O role used s)

include h

theorem KInv.kill (h1 : 1 ≤ i32 s.cur.registers.rdi)
    (hw : WakesLive s (i32 s.cur.registers.rdi)) (hrun : sysKill E s = (.ok (), s')) :
    KInv E G O (role.drop (i32 s.cur.registers.rdi)) used s' := by
  obtain ⟨_, s1, h2, h3⟩ := bind_ok.mp hrun
  rw [get_bind] at h3
  have hm := (setRax_minor 0).of_run h2
  have hcur : s1.cur.registers.rdi = s.cur.registers.rdi := by
    cases h2
    exact congrArg (fun p => p.registers.rdi) (setRax_cur 0 s)
  rw [hcur] at h3
  exact (h.minor hm).processKill h1 (hw.of_role hm.role) h3

/-- A process that ends by its own call, after a change of its exit
code. -/
theorem KInv.killSelf {f : Proc → Proc} (hf : ∀ p, SameRole p (f p))
    (hfd : ∀ p, (f p).fdList = p.fdList) (hw : WakesLive s s.current) (hrun : (do
      Prog.modify fun s : KState => s.updProc s.current f
      let s ← Prog.get
      Kernel.processKill E s.cur.pid : KM Unit) s = (.ok (), s')) :
    KInv E G O (role.drop s.current) used s' := by
  obtain ⟨_, s1, h1, h2⟩ := bind_ok.mp hrun
  rw [get_bind] at h2
  have hm : Minor s s1 := by
    cases h1
    exact Minor.own hf hfd
  have hk := h.minor hm
  rw [hk.numbered.cur, hm.current] at h2
  exact hk.processKill h.numbered.current.1 (hw.of_role hm.role) h2

theorem KInv.exit (hw : WakesLive s s.current)
    (hrun : sysExit E s = (.ok (), s')) : KInv E G O (role.drop s.current) used s' := by
  unfold sysExit at hrun
  exact h.killSelf (f := fun p => { p with exitCode := i32 p.registers.rdi })
    (fun _ => ⟨rfl, rfl, rfl, rfl, rfl, rfl⟩) (fun _ => rfl) hw hrun

theorem KInv.execDone (hw : WakesLive s s.current)
    (hrun : execDone E s = (.ok (), s')) : KInv E G O (role.drop s.current) used s' := by
  unfold Kernel.execDone at hrun
  exact h.killSelf (f := fun p => { p with exitCode := 0 })
    (fun _ => ⟨rfl, rfl, rfl, rfl, rfl, rfl⟩) (fun _ => rfl) hw hrun

theorem KInv.forget (ho : O → ∀ pn < 512, (s.pageinfo pn).owner ≠ i32 s.cur.registers.rdi)
    (hrun : sysForget s = (.ok (), s')) : KInv E G O role used s' := by
  obtain ⟨-, -, -, hrax⟩ := sysForget_ok hrun
  exact (h.freed ho).minor ((setRax_minor _).of_run hrax)

theorem KInv.pageFault (hrun : pageFault s = (.ok (), s')) : KInv E G O role used s' := by
  have h2 := bind_step hrun rfl
  obtain ⟨-, h4⟩ := failIf_bind_ok h2
  cases h4
  exact h.broken h.numbered.current.1

end

-- ==== execv

theorem Serves.sameRole (h : Serves s s') (i : Int) :
    SameRole (s.processes i) (s'.processes i) := by
  by_cases hi : i = s.current
  · subst hi
    have hrole := h.role
    unfold KState.cur at hrole
    rwa [h.current] at hrole
  · rw [h.others i hi]
    exact SameRole.refl _

/-- What a handler left keeps the invariant, for some tables and blocks. -/
def Kept (E : KEnv) (G O : Prop) (s : KState) : Prop := ∃ role used, KInv E G O role used s

theorem KInv.execv (h : KInv E G O role used s) (hlive : s.Live s.current)
    (htame : TameCall E G O s .execv) (hrun : sysExecv E s = (.ok (), s')) : Kept E G O s' := by
  have h2 := bind_step hrun rfl
  have h4 := bind_step h2 rfl
  obtain ⟨path, s3, h5, h6⟩ := bind_ok.mp h4
  obtain ⟨hpath, rfl⟩ : execPath s = some path ∧ s3 = s := readStr_some h5
  have hcmd : execCommand s3 = command path := by
    unfold execCommand
    rw [hpath]
    rfl
  have htame : TameExec s3 (command path) := hcmd ▸ htame
  cases hc : command path with
  | none =>
    rw [hc] at h6
    exact ⟨_, _, h.minor ((setRax_minor _).of_run h6)⟩
  | some c =>
    rw [hc] at h6 htame
    cases c with
    | memshow on =>
      have h8 := bind_step h6 rfl
      have hk : KInv E G O role used { s3 with memshowEnabled := on } :=
        h.of_same ⟨rfl, rfl, rfl, rfl, rfl⟩ rfl rfl
      exact ⟨_, _, hk.execDone htame h8⟩
    | clear => exact ⟨_, _, h.execDone htame h6⟩
    | testmalloc =>
      obtain ⟨_, s4, h7, h8⟩ := bind_ok.mp h6
      obtain ⟨used', hk⟩ := h.execTestmalloc h7
      have hserve := Serves.service.execTestmalloc.of_run h7
      refine ⟨_, _, hk.execDone ?_ h8⟩
      rw [hserve.current]
      exact WakesLive.of_role htame hserve.sameRole
    | program number =>
      have h8 := bind_step h6 rfl
      have h10 := bind_step h8 rfl
      cases hargs : countArgs s3.mem (execArgv s3) 0x40001 0 with
      | none =>
        unfold execArgv at hargs
        rw [hargs] at h10
        cases h10
      | some argc =>
        obtain ⟨hargv, size, htake, hroom⟩ := htame argc hargs
        have hmem := countArgs_le hargs
        unfold execArgv at hargs
        rw [hargs] at h10
        obtain ⟨role', hk⟩ := h.exec hlive hargv hmem htake hroom h10
        exact ⟨role', used, hk⟩

-- ==== steps

/-- The invariant between two exceptions. -/
structure Intact (E : KEnv) (G O : Prop) (s : KState) : Prop where
  kept : Kept E G O s
  live : s.Live s.current

theorem Kept.resumed (h : Kept E G O s) (hr : Resumed s s') : Intact E G O s' := by
  obtain ⟨role, used, hk⟩ := h
  obtain ⟨hk', hlive⟩ := hk.resumed hr
  exact ⟨⟨role, used, hk'⟩, hlive⟩

/-- A handler and the way out behind it. -/
theorem Kept.of_bind {x : KM Unit} (hx : ∀ s1, x s = (.ok (), s1) → Kept E G O s1)
    (h : (x >>= fun _ => resume E) s = (.ok (), s')) : Intact E G O s' := by
  obtain ⟨_, s1, h1, h2⟩ := bind_ok.mp h
  exact (hx s1 h1).resumed (resume_ok h2)

theorem KInv.dispatch (h : KInv E G O role used s) (hlive : s.Live s.current)
    (htame : TameCall E G O s t) (hrun : dispatch E t s = (.ok (), s')) : Intact E G O s' := by
  have hminor : ∀ {x : KM Unit}, Keeps Minor x → ∀ s1, x s = (.ok (), s1) →
      Kept E G O s1 := fun hx s1 h1 => ⟨role, used, h.minor (hx.of_run h1)⟩
  have hpath : ∀ {s1 : KState}, (∃ b : Blk, 256 ≤ b.size ∧ KInv E G O role (b :: used) s1) →
      Kept E G O s1 := fun ⟨b, _, hk⟩ => ⟨role, b :: used, hk⟩
  cases t with
  | timer =>
    have h2 := bind_step hrun rfl
    have hk : KInv E G O role used { s with ticks := u32 (s.ticks + 1) } :=
      h.of_same ⟨rfl, rfl, rfl, rfl, rfl⟩ rfl rfl
    exact Kept.resumed ⟨role, used, hk⟩ (schedule_ok h2)
  | yield => exact Kept.resumed ⟨role, used, h⟩ (schedule_ok hrun)
  | panic => cases hrun
  | unexpected => cases hrun
  | pagefault => exact Kept.of_bind (fun _ h1 => ⟨_, _, h.pageFault h1⟩) hrun
  | read => exact Kept.of_bind (fun _ h1 => ⟨_, _, h.read (h.bufferOk hlive htame) h1⟩) hrun
  | write =>
    exact Kept.of_bind (fun _ h1 =>
      ⟨_, _, h.write (fun hat => h.bufferOk hlive (htame hat)) h1⟩) hrun
  | «open» =>
    refine Kept.of_bind (fun s1 h1 => ?_) hrun
    obtain ⟨b, -, hk | ⟨e, -, hk, -⟩⟩ := h.open h1
    · exact ⟨role, _, hk⟩
    · exact ⟨role, _, hk⟩
  | hello => exact Kept.of_bind (hminor sysHello_minor) hrun
  | forget => exact Kept.of_bind (fun _ h1 => ⟨_, _, h.forget htame h1⟩) hrun
  | wait => exact Kept.of_bind (fun _ h1 => ⟨_, _, h.wait hlive (h.bufferOk hlive htame) h1⟩) hrun
  | keybord => exact Kept.of_bind (hminor sysKeybord_minor) hrun
  | pageAlloc => exact Kept.of_bind (fun _ h1 => ⟨_, _, h.pageAlloc hlive htame h1⟩) hrun
  | getpid => exact Kept.of_bind (hminor sysGetpid_minor) hrun
  | fork =>
    refine Kept.of_bind (fun s1 h1 => ?_) hrun
    obtain ⟨-, role', hk⟩ := h.fork hlive h1
    exact ⟨role', used, hk⟩
  | execv => exact Kept.of_bind (fun _ h1 => h.execv hlive htame h1) hrun
  | exit => exact Kept.of_bind (fun _ h1 => ⟨_, _, h.exit htame h1⟩) hrun
  | kill => exact Kept.of_bind (fun _ h1 => ⟨_, _, h.kill htame.1 htame.2.2 h1⟩) hrun
  | getcwd => exact Kept.of_bind (fun _ h1 => ⟨_, _, h.getcwd (h.bufferOk hlive htame) h1⟩) hrun
  | chdir => exact Kept.of_bind (fun _ h1 => hpath (h.chdir h1)) hrun
  | mkdir => exact Kept.of_bind (fun _ h1 => hpath (h.mkdir h1)) hrun
  | getrandom => exact Kept.of_bind (hminor sysGetrandom_minor) hrun
  | listdir =>
    exact Kept.of_bind (fun _ h1 => hpath (h.listdir hlive (h.bufferOk hlive htame) h1)) hrun
  | touch => exact Kept.of_bind (fun _ h1 => hpath (h.touch h1)) hrun
  | remove => exact Kept.of_bind (fun _ h1 => hpath (h.remove h1)) hrun

theorem TameExec.idle {c : Option Command} (htame : TameExec s c) (h : Idle s s') :
    TameExec s' c := by
  obtain ⟨_, _, _, _, _, rfl⟩ := h.exists_eq
  rcases c with - | on | - | - | n
  · trivial
  · exact htame
  · exact htame
  · exact htame
  · exact ArgsFit.congr (s := s) rfl rfl rfl htame

/-- The condition does not look at the keyboard and the clock. -/
theorem TameCall.idle (htame : TameCall E G O s t) (h : Idle s s') :
    TameCall E G O s' t := by
  cases t
  case execv =>
    have hexec := TameExec.idle (c := execCommand s) htame h
    obtain ⟨_, _, _, _, _, rfl⟩ := h.exists_eq
    exact hexec
  all_goals
    obtain ⟨_, _, _, _, _, rfl⟩ := h.exists_eq
    exact htame

theorem KInv.entered (h : KInv E G O role used s)
    (hlive : s.Live s.current) (hin : Entered E regs s s1) :
    KInv E G O role used s1 ∧ s1.Live s1.current := by
  refine ⟨(h.saved regs).idle hin.rest, ?_⟩
  have hrole := (saved_serves regs s).sameRole
  obtain ⟨hp, hc, -⟩ := hin.rest.same
  unfold KState.Live
  rw [hp, hc, (hrole _).state]
  exact hlive

theorem Intact.step (h : Intact E G O s) (htame : Tame E G O s ev)
    (hev : KStep E s ev s') : Intact E G O s' := by
  obtain ⟨⟨role, used, hk⟩, hlive⟩ := h
  cases hev with
  | user hm => exact ⟨⟨role, used, hk.user hlive hm⟩, hlive⟩
  | trap hx =>
    rename_i regs
    obtain ⟨s1, hin, hrun⟩ := exception_dispatch hx
    obtain ⟨hk1, hlive1⟩ := hk.entered hlive hin
    exact hk1.dispatch hlive1 (TameCall.idle htame hin.rest) hrun

/-- Less may be asked for. -/
theorem KInv.mono (h : KInv E G O role used s) (hG : G' → G) (hO : O' → O) :
    KInv E G' O' role used s := by
  refine { h with live := fun i hi => ?_, owner := fun ho => h.owner (hO ho) }
  obtain ⟨⟨root, hroot, hsp, hfit⟩, hwait⟩ := h.live i hi
  exact ⟨⟨root, hroot, hsp, fun hg => hfit (hG hg)⟩, hwait⟩

theorem Booted.intact (h : Booted E s) : Intact E G O s := by
  obtain ⟨role, hup⟩ := h.up
  exact ⟨⟨role, [], hup.inv.mono (fun _ => trivial) fun _ => trivial⟩, hup.live⟩

/-- Tame steps keep the invariant. -/
theorem Reached.intact (h : Reached E (Tame E G O) s) : Intact E G O s :=
  (h.induct (P := Intact E G O) (fun _ hb => hb.intact) fun _ _ _ _ htame hs hev =>
    hs.step htame hev).2

end RojocOS.Kernel
