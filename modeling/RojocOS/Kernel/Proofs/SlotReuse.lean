/-
Descriptors of a slot that is used again.

`fd_list` and `fd_max` belong to the slot and not to the process: only
calls of the process in the slot change them (`exception_fds`), `fork`
does not set them, and neither exit, kill nor forget clears them. A child
therefore starts with what the slot's last process left. It starts with
nothing as long as every process that is forgotten has nothing open
(`Clean.step`).
-/
import RojocOS.Kernel.Proofs.WakeUp
import RojocOS.Kernel.Proofs.RootInode

namespace RojocOS.Kernel

open ByteMap

variable {E : KEnv} {s s' : KState} {regs : Registers} {i o : Int} {L' : Int → Life}
  {ev : Event} {m m' : ByteMap} {n : Nat} {t : Trap}
variable {cur pid : Int} {L : Int → Life} {root : Nat}

/-- `fd_list` and `fd_max` of an entry. -/
def fds (s : KState) (i : Int) : Nat × Int :=
  ((s.processes i).fdList, (s.processes i).fdMax)

-- ==== steps

theorem Serves.fds (h : Serves s s') (hi : i ≠ s.current) : fds s' i = fds s i := by
  unfold Kernel.fds
  rw [h.others i hi]

/-- Nothing else of one entry changes. -/
theorem fds_updProc {f : Proc → Proc}
    (hf : ∀ p, (f p).fdList = p.fdList ∧ (f p).fdMax = p.fdMax) :
    fds (s.updProc o f) i = fds s i := by
  unfold fds
  by_cases hi : i = o
  · subst hi
    rw [s.updProc_same, (hf _).1, (hf _).2]
  · rw [s.updProc_other f hi]

theorem processKill_fds (h : processKill E pid s = (.ok (), s')) :
    fds s' i = fds s i := by
  unfold fds
  rw [processKill_processes h]
  split
  · rfl
  · split <;> rfl

theorem Act.fds (h : Act E t s s') (hn : Numbered s) (hi : i ≠ s.current) :
    fds s' i = fds s i := by
  cases h with
  | serve h => exact h.fds hi
  | fault => exact fds_updProc fun _ => ⟨rfl, rfl⟩
  | forget _ _ _ _ _ h => exact (h.fds hi).trans (fds_updProc fun _ => ⟨rfl, rfl⟩)
  | block _ _ _ _ h =>
    refine Eq.trans ?_ (h.fds hi)
    exact fds_updProc fun _ => ⟨rfl, rfl⟩
  | exit _ h hkill => exact (processKill_fds hkill).trans (h.fds hi)
  | kill h hkill => exact (processKill_fds hkill).trans (h.fds hi)
  | @fork _ s1 _ c pagetable hslot h h' =>
    refine (h'.fds hi).trans ?_
    have hchild : Kernel.fds { forkChild s.current c pagetable s1 with current := s.current } i
        = Kernel.fds s1 i := by
      show Kernel.fds (forkChild s.current c pagetable s1) i = _
      exact fds_updProc fun _ => ⟨rfl, rfl⟩
    rw [hchild]
    unfold Kernel.fds
    rw [show s1.processes = s.processes from h.processes]
  | exec h hrelease hsetup h' =>
    rw [releasePages_ok hrelease] at hsetup
    have hren := processSetup_ok hsetup
    rw [hn.cur] at hren
    refine (h'.fds (hren.current.symm ▸ hi)).trans (Eq.trans ?_ (h.fds hi))
    unfold Kernel.fds
    rw [hren.others i hi]

/-- A trap changes descriptors of the process that traps only. -/
theorem exception_fds (hn : Numbered s) (h : exception E regs s = (.ok (), s'))
    (hi : i ≠ s.current) : fds s' i = fds s i := by
  obtain ⟨s1, s2, hin, hact, hout⟩ := exception_act h
  have hserve := hin.serves
  have hact' := hact.fds (hserve.numbered hn) (hserve.current.symm ▸ hi)
  refine Eq.trans ?_ (hact'.trans (hserve.fds hi))
  unfold fds
  rw [hout.processes]

theorem killLives_free (h : (killLives pid L i).state = .free) : (L i).state = .free := by
  unfold killLives at h
  split at h
  · cases h
  · split at h
    · cases h
    · exact h

/-- Only `forget` frees an entry. -/
theorem LStep.frees {e : Ending} (h : LStep cur L e L')
    (hfree : (L' i).state = .free) (hold : (L i).state ≠ .free) :
    e = .forget i ∧ (L i).state = .broken := by
  have hupd : ∀ {o : Int} {l : Life}, (Function.update L o l i).state = .free →
      l.state ≠ .free → False := by
    intro o l hl hne
    by_cases hi : i = o
    · subst hi
      rw [Function.update_self] at hl
      exact hne hl
    · rw [Function.update_of_ne hi] at hl
      exact hold hl
  cases h with
  | idle => exact absurd hfree hold
  | @forget c _ _ _ hstate =>
    by_cases hi : i = c
    · subst hi
      exact ⟨rfl, hstate⟩
    · rw [Function.update_of_ne hi] at hfree
      exact absurd hfree hold
  | block => exact (hupd hfree nofun).elim
  | fork => exact (hupd hfree nofun).elim
  | exec => exact (hupd hfree nofun).elim
  | fault => exact (hupd hfree nofun).elim
  | kill => exact absurd (killLives_free hfree) hold

-- ==== runs

/-- Free entries have nothing open. -/
def Clean (s : KState) : Prop :=
  ∀ i : Int, 0 ≤ i → i < 16 → (s.lives i).state = .free → fds s i = (0, 0)

/-- A process that is forgotten has nothing open. -/
def ForgetsClean (s : KState) : Event → Prop
  | .user _ => True
  | .trap regs => ∀ c, trapEnding s regs = .forget c → fds s c = (0, 0)

theorem Clean.step (h : Clean s) (hn : Numbered s) (hs : Sane s)
    (hC : ForgetsClean s ev) (hev : KStep E s ev s') : Clean s' := by
  cases hev with
  | user _ => exact h
  | trap hx =>
    intro i h0 h16 hfree
    have hne : (s.lives i).state ≠ .runnable → i ≠ s.current := by
      rintro hst rfl
      exact hst hs.running
    by_cases hold : (s.lives i).state = .free
    · rw [exception_fds hn hx (hne (by rw [hold]; decide))]
      exact h i h0 h16 hold
    · obtain ⟨hend, hb⟩ := (exception_lives hn hx).frees hfree hold
      rw [exception_fds hn hx (hne (by rw [hb]; decide))]
      exact hC i hend

theorem Booted.clean (h : Booted E s) : Clean s := by
  intro i h0 h16 _
  have he := h.bootTable.entry i h0 h16
  unfold fds
  rw [he.fdList, he.fdMax]

/-- A trap `fork` for which slot `c` is the first free one. -/
structure Forks (E : KEnv) (s : KState) (c : Nat) (s' : KState) : Prop where
  call : ∃ regs, trapOf regs.intno = .fork ∧ exception E regs s = (.ok (), s')
  slot : freeSlot s = some c

/-- Two children in slot `c` have the same descriptors if in both runs
every process that was forgotten had nothing open; and in any case exactly
if the slot held the same before. -/
theorem slot_fds_iff :
    (∀ s s' t t' c, Reached E ForgetsClean s → Reached E ForgetsClean t → Forks E s c s' →
      Forks E t c t' → fds s' c = fds t' c)
      ∧ ∀ C D s s' t t' c, Reached E C s → Reached E D t → Forks E s c s' → Forks E t c t' →
          (fds s' c = fds t' c ↔ fds s c = fds t c) := by
  have hchild : ∀ {C s s'} {c : Nat}, Reached E C s → Forks E s c s' → fds s' c = fds s c := by
    intro C s s' c hr hf
    obtain ⟨regs, -, hx⟩ := hf.call
    refine exception_fds hr.numbered hx fun heq => ?_
    have hfree : (s.lives c).state = .free := (freeSlot_some hf.slot).2.2
    rw [heq, hr.sane.running] at hfree
    cases hfree
  have hclean : ∀ {s s'} {c : Nat}, Reached E ForgetsClean s → Forks E s c s' →
      fds s c = (0, 0) := by
    intro s s' c hr hf
    obtain ⟨h1, h16, hfree⟩ := freeSlot_some hf.slot
    obtain ⟨-, hc⟩ := hr.induct_sane (P := Clean) (fun _ h => h.clean)
      fun _ _ _ hn hs hC h hev => h.step hn hs hC hev
    exact hc c (by omega) (by omega) hfree
  refine ⟨fun s s' t t' c hs ht hf hg => ?_, fun C D s s' t t' c hs ht hf hg => ?_⟩
  · rw [hchild hs hf, hchild ht hg, hclean hs hf, hclean ht hg]
  · rw [hchild hs hf, hchild ht hg]

-- ==== two runs

/-- The running process of the small kernel puts a slash in its memory and
opens the root directory, its first descriptor. -/
theorem Stage.open_root
    (h : Stage patientKEnv cur L s) (hfd : fds s cur = (0, 0)) (hdesc : s.desc = Fs.fsdesc)
    (hdisk : s.disk = zero) (hheap : s.heapPages = []) (hroom : n + 2 ≤ freePages s)
    (hn : n ≤ 1000) :
    ∃ m v s', KStep patientKEnv s (.user m) { s with mem := m }
      ∧ exception patientKEnv (callAt 51 v) { s with mem := m } = (.ok (), s')
      ∧ Stage patientKEnv cur L s' ∧ (s'.processes cur).fdMax = 1 ∧ n ≤ freePages s'
      ∧ ∀ j root, j ≠ cur → s.Live j → (s.processes j).pagetable = root * 4096 →
          (s'.processes j).pagetable = root * 4096
            ∧ ∀ va, leafEntry s'.mem root va = leafEntry s.mem root va := by
  obtain ⟨role, used, hinv⟩ := h.inv
  have hstr0 : (0 : UInt8) ∉ [Fs.slash] := by decide
  obtain ⟨v, pn, m, hstep, hk, htext, hstr⟩ := hinv.poke h.live hstr0 (by decide)
  have hstage : Stage patientKEnv cur L { s with mem := m } :=
    ⟨⟨role, used, hk⟩, h.current, h.lives, h.running⟩
  have hcur := trapped_cur (callAt 51 v) { s with mem := m }
  have hlow := htext.low
  have hpa : (virtualMemoryLookup (trapped (callAt 51 v) { s with mem := m }).mem
      (trapped (callAt 51 v) { s with mem := m }).cur.pagetable
      (u64 (trapped (callAt 51 v) { s with mem := m }).cur.registers.rdi)).pa = pn * 4096 := by
    have hva : u64 (v * 4096) = v * 4096 := Nat.mod_eq_of_lt (by omega)
    rw [hcur]
    show (virtualMemoryLookup m s.cur.pagetable (u64 (v * 4096))).pa = _
    rw [hva]
    exact hk.textPage_pa htext
  have hroomy : Roomy patientKEnv (n + 1 + 1) (trapped (callAt 51 v) { s with mem := m }) := by
    refine ⟨by decide, ?_, ?_⟩
    · show s.heapPages.length + (n + 1 + 1) ≤ 1024
      rw [hheap, List.length_nil]
      omega
    · rw [length_freeQueue]
      exact hroom
  have hres : ∀ cwd, resolved cwd [Fs.slash] = [Fs.slash] := fun _ => rfl
  have hlong : ∀ cwd, ¬ tooLong cwd [Fs.slash] := by
    rintro cwd (⟨hx, -⟩ | hx)
    · exact hx rfl
    · rw [hres] at hx
      exact absurd hx (by decide)
  obtain ⟨t, hpath, hroom'⟩ := (hk.trapped (callAt 51 v)).pathArg_eq hroomy hpa hstr
    (fun d hd => htext.byte (Nat.lt_of_le_of_lt hd (by decide))) (hlong _)
  rw [hres] at hpath
  have hsame := (pathArg_ok hpath).1
  obtain ⟨w, hattr, -⟩ := fsGetattr_root t.world (hsame.disk.trans hdisk)
  have htdesc : t.desc = Fs.fsdesc := hsame.desc.trans hdesc
  have hcfd : fds s s.current = (0, 0) := h.current.symm ▸ hfd
  obtain ⟨s', hrun, -, -, -, hmax, hroom2, hframe⟩ := (hk.trapped (callAt 51 v)).open_eq hpath
    hroom' (htdesc.symm ▸ hattr) (by rw [hcur]; exact congrArg Prod.fst hcfd)
    (by rw [hcur]; exact congrArg Prod.snd hcfd)
  have hserve := Serves.service.sysOpen.of_run hrun
  have hinv' : ∃ used, KInv patientKEnv True True role used s' := by
    obtain ⟨b, -, hk' | ⟨e, -, hk', -⟩⟩ := (hk.trapped (callAt 51 v)).open hrun
    · exact ⟨_, hk'⟩
    · exact ⟨_, hk'⟩
  obtain ⟨used', hk'⟩ := hinv'
  have hlives : s'.lives = s.lives := by
    rw [hserve.lives]
    exact trapped_lives (callAt 51 v) { s with mem := m }
  have hcurrent : s'.current = cur := hserve.current.trans h.current
  obtain ⟨heq, hstage'⟩ := hstage.stay patient_silent rfl hrun hk'
    hcurrent (fun i h0 h16 => by rw [hlives, h.lives i h0 h16]) h.running
  refine ⟨m, v, s', hstep, heq, hstage', ?_, ?_, fun j root hj hlive hroot => ?_⟩
  · rw [← hcurrent]
    exact hmax
  · rw [← length_freeQueue]
    exact hroom2.queue
  have hne : j ≠ s.current := h.current.symm ▸ hj
  have hother : (trapped (callAt 51 v) { s with mem := m }).processes j = s.processes j :=
    trapped_other _ { s with mem := m } hne
  refine ⟨?_, fun va => ?_⟩
  · rw [hserve.others j hne, hother]
    exact hroot
  · -- neither the call nor the write before it touches a table of `j`
    obtain ⟨root', hroot', hsp, -⟩ := (hinv.live j hlive).space
    obtain rfl : root' = root := by omega
    have hj1 := hlive.1
    rw [(hk.trapped (callAt 51 v)).mach.leafEntry_frame hsp.isRoot hframe (by omega) va]
    cases hstep with
    | user hm =>
      refine (hinv.mach.tables.leafEntry_write hsp.isRoot (fun x hx => ?_) va).1
      rcases hinv.userByte h.live (hm x hx).1 with hcon | hown
      · rw [hcon]
        exact hinv.console
      · exact hown.2

theorem mappedPages_congr
    (h : ∀ va, leafEntry m' root va = leafEntry m root va) (v n : Nat) :
    mappedPages m' root v n = mappedPages m root v n := by
  refine List.countP_congr fun w _ => ?_
  rw [h]

/-- Process 1 can make another child. -/
structure CanFork (root : Nat) (s : KState) : Prop where
  table : (s.processes 1).pagetable = root * 4096
  small : mappedPages s.mem root 0 768 ≤ 11
  room : 45 ≤ freePages s

theorem CanFork.passes (h : CanFork root s) (hp : Passes 1 0 s s') : CanFork root s' := by
  have hfree := hp.free
  have hroom := h.room
  refine ⟨hp.table.trans h.table, ?_, by omega⟩
  rw [mappedPages_congr (hp.entries root h.table)]
  exact h.small

/-- The life cycle with a child in slot 2. -/
def childLives : Int → Life := Function.update bootLives 2 ⟨.runnable, 1, -1⟩

/-- The first process of the small kernel has made a child, which runs. -/
structure ChildRuns (s₀ s₁ s₂ : KState) (root : Nat) : Prop where
  boot : Booted patientKEnv s₀
  fork : exception patientKEnv { intno := 62 } s₀ = (.ok (), s₁)
  yield : exception patientKEnv { intno := 60 } s₁ = (.ok (), s₂)
  stage : Stage patientKEnv 2 childLives s₂
  fds : fds s₂ 2 = (0, 0)
  world : s₂.desc = Fs.fsdesc ∧ s₂.disk = zero ∧ s₂.heapPages = []
  first : CanFork root s₂
  room : 47 ≤ freePages s₂

theorem child_runs : ∃ s0 s1 s2 root, ChildRuns s0 s1 s2 root := by
  obtain ⟨s0, role, hs⟩ := patient_started
  obtain ⟨root, hroot, hsmall⟩ := hs.small
  have hroom := hs.patient_room
  obtain ⟨s1, hfork, h1, hp1⟩ := hs.booted.stage.fork patient_silent (c := 2) (by decide) hroot
    (by omega)
  have hnext : Follows childLives 1 2 := ⟨0, by decide, by decide, by decide, by decide⟩
  obtain ⟨s2, hyield, h2, hs2⟩ := h1.yield patient_silent hnext
  have hp := hp1.trans ((trapped_passes 1 { intno := 60 } s1).picked hs2)
  have hfree := hp.free
  have he := hs.up.table.entry 2 (by decide) (by decide)
  obtain ⟨hdesc, hdisk, hheap⟩ := hp.world
  refine ⟨s0, s1, s2, root, hs.booted, hfork, hyield, h2, ?_,
    ⟨hdesc.trans (hs.desc fun _ _ _ => rfl), hdisk.trans hs.disk, hheap.trans hs.heap⟩,
    ⟨hp.table.trans hroot, ?_, by omega⟩, by omega⟩
  · unfold fds
    rw [(hp.fds 2).1, (hp.fds 2).2, he.fdList, he.fdMax]
  · rw [mappedPages_congr (hp.entries root hroot)]
    exact hsmall

/-- The child ends and is forgotten, and its parent makes another one. -/
theorem Stage.reuse (h : Stage patientKEnv 2 childLives s) (hc : CanFork root s) :
    ∃ s1 s2 s3 s4, exception patientKEnv { intno := 64 } s = (.ok (), s1)
      ∧ exception patientKEnv { intno := 60 } s1 = (.ok (), s2)
      ∧ exception patientKEnv { intno := 56, rdi := 2 } s2 = (.ok (), s3)
      ∧ exception patientKEnv { intno := 62 } s3 = (.ok (), s4)
      ∧ freeSlot s3 = some 2 ∧ (s3.lives 2).parent = 1 ∧ (s4.lives 2).state = .runnable
      ∧ fds s2 2 = fds s 2 ∧ fds s4 2 = fds s 2 := by
  obtain ⟨s1, hexit, h1, hp1, hbare⟩ := h.exit patient_silent (by decide) (by decide)
    ⟨2, by decide, rfl, by decide, by decide⟩
  obtain ⟨s2, hyield, h2, hs2⟩ := h1.yield patient_silent
    ⟨11, by decide, rfl, by decide, by decide⟩
  have hp2 : ∀ i, Passes i 0 s1 s2 := fun i =>
    (trapped_passes i { intno := 60 } s1).picked hs2
  have hbare2 : ∀ pn < 512, (s2.pageinfo pn).owner ≠ 2 := by
    rw [hs2]
    exact hbare
  obtain ⟨s3, hforget, h3, hp3⟩ := h2.forget patient_silent (by decide) (by decide)
    (by decide) (by decide) (by decide) hbare2
  have hp : Passes 1 0 s s3 := (hp1 1).trans ((hp2 1).trans (hp3 1))
  have hc3 := hc.passes hp
  have hsmall := hc3.small
  have hroom := hc3.room
  obtain ⟨s4, hfork, h4, hp4⟩ := h3.fork patient_silent (c := 2) (by decide) hc3.table (by omega)
  have hp' : Passes 1 0 s s2 := (hp1 1).trans (hp2 1)
  refine ⟨s1, s2, s3, s4, hexit, hyield, hforget, hfork, ?_, ?_, ?_, ?_, ?_⟩
  · rw [freeSlot_lives h3.lives]
    decide
  · rw [h3.lives 2 (by decide) (by decide)]
    decide
  · rw [h4.lives 2 (by decide) (by decide)]
    decide
  · unfold fds
    rw [(hp'.fds 2).1, (hp'.fds 2).2]
  · unfold fds
    rw [(hp4.fds 2).1, (hp4.fds 2).2, (hp.fds 2).1, (hp.fds 2).2]

theorem slot_fds_iff_reused : ∃ s s' t t', Reached patientKEnv ForgetsClean s
    ∧ Reached patientKEnv ForgetsClean t ∧ Forks patientKEnv s 2 s' ∧ Forks patientKEnv t 2 t'
    ∧ (s.lives 2).parent = 0 ∧ (t.lives 2).parent = 1 ∧ fds s' 2 = fds t' 2
    ∧ (fds s' 2 = fds t' 2 ↔ fds s 2 = fds t 2) := by
  obtain ⟨s₀, s₁, s₂, root, h⟩ := child_runs
  obtain ⟨b₁, b₂, b₃, b₄, hexit, hyield, hforget, hfork, hslot, hparent, -, hfd, -⟩ :=
    h.stage.reuse h.first
  have hfork₀ : ForgetsClean s₀ (.trap { intno := 62 }) := fun c hc =>
    nomatch (show Ending.none = .forget c from hc)
  have hyield₁ : ∀ s, ForgetsClean s (.trap { intno := 60 }) := fun s c hc =>
    nomatch (show Ending.none = .forget c from hc)
  have hexit₂ : ForgetsClean s₂ (.trap { intno := 64 }) := fun c hc =>
    nomatch (show Ending.kill s₂.current = .forget c from hc)
  have hforget₂ : ForgetsClean b₂ (.trap { intno := 56, rdi := 2 }) := by
    intro c hc
    have hc : Ending.forget (i32 (saved { intno := 56, rdi := 2 } b₂).cur.registers.rdi)
        = .forget c := hc
    rw [saved_registers] at hc
    cases hc
    exact hfd.trans h.fds
  have hr : Reached patientKEnv ForgetsClean b₃ :=
    ⟨s₀, h.boot, .tail (.tail (.tail (.tail (.tail .refl ⟨_, hfork₀, .trap h.fork⟩)
      ⟨_, hyield₁ s₁, .trap h.yield⟩) ⟨_, hexit₂, .trap hexit⟩) ⟨_, hyield₁ b₁, .trap hyield⟩)
      ⟨_, hforget₂, .trap hforget⟩⟩
  have hr₀ : Reached patientKEnv ForgetsClean s₀ := ⟨s₀, h.boot, .refl⟩
  have hf₀ : Forks patientKEnv s₀ 2 s₁ := by
    refine ⟨⟨_, rfl, h.fork⟩, ?_⟩
    rw [freeSlot_lives h.boot.stage.lives]
    decide
  have hf : Forks patientKEnv b₃ 2 b₄ := ⟨⟨_, rfl, hfork⟩, hslot⟩
  refine ⟨s₀, s₁, b₃, b₄, hr₀, hr, hf₀, hf, ?_, hparent, slot_fds_iff.1 _ _ _ _ 2 hr₀ hr hf₀ hf,
    slot_fds_iff.2 _ _ _ _ _ _ 2 hr₀ hr hf₀ hf⟩
  rw [h.boot.stage.lives 2 (by decide) (by decide)]
  decide

/-- Two runs that differ in one call of the first child: it opens the root
directory or not. The child that gets its slot starts with the number 1 or
0. -/
theorem slot_keeps_descriptors :
    ∃ s₀ s₁ s₂ m v a a₁ a₂ a₃ a₄ b₁ b₂ b₃ b₄, Booted patientKEnv s₀
    ∧ exception patientKEnv { intno := 62 } s₀ = (.ok (), s₁)
    ∧ exception patientKEnv { intno := 60 } s₁ = (.ok (), s₂)
    ∧ (KStep patientKEnv s₂ (.user m) { s₂ with mem := m }
      ∧ exception patientKEnv (callAt 51 v) { s₂ with mem := m } = (.ok (), a)
      ∧ exception patientKEnv { intno := 64 } a = (.ok (), a₁)
      ∧ exception patientKEnv { intno := 60 } a₁ = (.ok (), a₂)
      ∧ exception patientKEnv { intno := 56, rdi := 2 } a₂ = (.ok (), a₃)
      ∧ exception patientKEnv { intno := 62 } a₃ = (.ok (), a₄))
    ∧ (exception patientKEnv { intno := 64 } s₂ = (.ok (), b₁)
      ∧ exception patientKEnv { intno := 60 } b₁ = (.ok (), b₂)
      ∧ exception patientKEnv { intno := 56, rdi := 2 } b₂ = (.ok (), b₃)
      ∧ exception patientKEnv { intno := 62 } b₃ = (.ok (), b₄))
    ∧ (a₄.processes 2).state = .runnable ∧ (b₄.processes 2).state = .runnable
    ∧ (a₄.processes 2).fdMax = 1 ∧ (b₄.processes 2).fdMax = 0 := by
  obtain ⟨s₀, s₁, s₂, root, h⟩ := child_runs
  obtain ⟨hdesc, hdisk, hheap⟩ := h.world
  obtain ⟨m, v, a, hstep, hopen, ha, hmax, hroom, hfirst⟩ := h.stage.open_root (n := 45) h.fds
    hdesc hdisk hheap h.room (by decide)
  have hone : s₂.Live 1 :=
    ⟨by decide, by decide, .inl (congrArg Life.state (h.stage.lives 1 (by decide) (by decide)))⟩
  obtain ⟨htable, hentries⟩ := hfirst 1 root (by decide) hone h.first.table
  have hca : CanFork root a := by
    refine ⟨htable, ?_, hroom⟩
    rw [mappedPages_congr hentries]
    exact h.first.small
  obtain ⟨a₁, a₂, a₃, a₄, ha₁, ha₂, ha₃, ha₄, -, -, hrun, -, hfd⟩ := ha.reuse hca
  obtain ⟨b₁, b₂, b₃, b₄, hb₁, hb₂, hb₃, hb₄, -, -, hrun', -, hfd'⟩ := h.stage.reuse h.first
  exact ⟨s₀, s₁, s₂, m, v, a, a₁, a₂, a₃, a₄, b₁, b₂, b₃, b₄, h.boot, h.fork, h.yield,
    ⟨hstep, hopen, ha₁, ha₂, ha₃, ha₄⟩, ⟨hb₁, hb₂, hb₃, hb₄⟩, hrun, hrun',
    (congrArg Prod.snd hfd).trans hmax, congrArg Prod.snd (hfd'.trans h.fds)⟩

end RojocOS.Kernel
