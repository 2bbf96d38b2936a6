/-
Inode 0 under the system calls.

# Who touches the disk

Of the handlers only those with a path or a descriptor call the file
system, and `sys_hello`. A relation that looks at nothing but the disk and
the file system's descriptor (`OnDisk`) is kept by all the others.

# The way in

`sys_open` of a directory succeeds: `fs_getattr` returns 0 for it, which
is stored as the descriptor's inode. `sys_write` hands that 0 to
`fs_write`. So entry 0 stays zero in the runs in which nobody writes at
the start of such a descriptor (`root_inode_unused`), and the first such
write ends that (`directory_written`).
-/
import RojocOS.Fs.Proofs.RootEntry
import RojocOS.Kernel.Proofs.DescCalls

namespace RojocOS.Kernel

open ByteMap Fs Prog

variable {E : KEnv} {α : Type} {s s' : KState} {ev : Event} {n pa : Nat} {t : Trap}

-- ==== handlers without a disk

/-- The relation is about the disk and its descriptor. -/
structure OnDisk (R : KState → KState → Prop) : Prop where
  trans : ∀ {a b c}, R a b → R b c → R a c
  rest : ∀ {s s'}, s'.disk = s.disk → s'.desc = s.desc → R s s'

namespace OnDisk

variable {R : KState → KState → Prop} (hR : OnDisk R)
include hR

theorem paged : Paged R where
  refl _ := hR.rest rfl rfl
  trans := hR.trans
  mem _ _ := hR.rest rfl rfl
  take _ _ _ := hR.rest rfl rfl
  turn _ _ := hR.rest rfl rfl

theorem pooled : Pooled E R :=
  { hR.paged with
    list := fun _ _ => hR.rest rfl rfl
    extend := hR.paged.extendHeap (fun _ _ => hR.rest rfl rfl) _ }

theorem bind {β : Type} {x : KM α} {f : α → KM β} (hx : Keeps R x)
    (hf : ∀ a, Keeps R (f a)) : Keeps R (x >>= f) := hR.paged.bind hx hf

theorem get : Keeps R (Prog.get : KM KState) := hR.paged.get

theorem pure (a : α) : Keeps R (pure a : KM α) := hR.paged.pure a

theorem modify {f : KState → KState} (h : ∀ s, (f s).disk = s.disk)
    (h' : ∀ s, (f s).desc = s.desc) : Keeps R (Prog.modify f) :=
  fun s => hR.rest (h s) (h' s)

theorem updProc (i : KState → Int) (f : KState → Proc → Proc) :
    Keeps R (Prog.modify fun s => s.updProc (i s) (f s)) :=
  hR.modify (fun _ => rfl) fun _ => rfl

theorem idle {x : KM α} (hx : Keeps Idle x) : Keeps R x := by
  intro s
  obtain ⟨_, _, _, _, _, heq⟩ := (hx s).exists_eq
  rw [heq]
  exact hR.rest rfl rfl

theorem run (pid : Int) : Keeps R (run E pid) := by
  refine hR.bind hR.get fun s => hR.bind (hR.paged.assert _) fun _ => ?_
  exact hR.bind (hR.modify (fun _ => rfl) fun _ => rfl) fun _ => hR.paged.walk.setPagetable _

theorem scheduleLoop (n : Nat) : ∀ pid, Keeps R (scheduleLoop E n pid) := by
  induction n with
  | zero => exact fun _ => hR.paged.stop _
  | succ n ih =>
    intro pid
    refine hR.bind hR.get fun s => Keeps.ite (hR.run _) ?_
    exact hR.bind (hR.idle checkKeyboardPush_idle) fun _ => ih _

theorem schedule : Keeps R (schedule E) :=
  hR.bind hR.get fun _ => hR.scheduleLoop _ _

theorem resume : Keeps R (resume E) :=
  hR.bind hR.get fun _ => Keeps.ite (hR.run _) hR.schedule

theorem pageFault : Keeps R pageFault :=
  hR.bind hR.get fun _ => hR.bind (hR.paged.failIf _ _) fun _ => hR.updProc _ _

-- ----------------------------------------------------------- processes

theorem releasePages (pid : Int) (keep : Nat → Bool) : Keeps R (releasePages pid keep) :=
  hR.bind hR.get fun _ => hR.bind (hR.paged.assert _) fun _ =>
    hR.modify (fun _ => rfl) fun _ => rfl

theorem processKill (pid : Int) : Keeps R (processKill E pid) := by
  refine hR.bind (hR.updProc _ _) fun _ => hR.bind (hR.releasePages _ _) fun _ => ?_
  refine hR.bind hR.get fun s => Keeps.ite ?_ (hR.pure _)
  refine hR.bind (hR.paged.assert _) fun _ => Keeps.ite ?_ (hR.pure _)
  refine hR.bind hR.get fun _ => hR.bind (hR.paged.guardWrite _ _) fun _ => ?_
  exact hR.bind (hR.modify (fun _ => rfl) fun _ => rfl) fun _ => hR.updProc _ _

theorem processSetup (pid : Int) (n : Nat) (parent : Int) :
    Keeps R (processSetup E pid n parent) :=
  hR.paged.walk.processSetup (fun f _ => hR.updProc _ f)
    (hR.modify (fun _ => rfl) fun _ => rfl) n

theorem sysExit : Keeps R (sysExit E) :=
  hR.bind (hR.updProc _ _) fun _ => hR.bind hR.get fun _ => hR.processKill _

theorem sysKill : Keeps R (sysKill E) :=
  hR.bind (hR.updProc _ _) fun _ => hR.bind hR.get fun _ => hR.processKill _

theorem sysWait : Keeps R (sysWait E) := by
  refine hR.bind hR.get fun s => hR.bind (hR.paged.lookupVa _) fun a => ?_
  refine hR.bind (hR.paged.assert _) fun _ => hR.bind (hR.paged.assert _) fun _ => ?_
  refine hR.bind (hR.updProc _ _) fun _ => Keeps.ite ?_ (hR.updProc _ _)
  exact hR.bind (hR.paged.guardWrite _ _) fun _ => hR.modify (fun _ => rfl) fun _ => rfl

theorem sysForget : Keeps R sysForget := by
  refine hR.bind hR.get fun s => hR.bind (hR.paged.assert _) fun _ => ?_
  refine hR.bind (hR.paged.assert _) fun _ => hR.bind (hR.paged.assert _) fun _ => ?_
  exact hR.bind (hR.updProc _ _) fun _ => hR.updProc _ _

theorem sysFork : Keeps R sysFork := by
  have hcur : ∀ i : Int, Keeps R (Prog.modify fun s : KState => { s with current := i }) :=
    fun _ => hR.modify (fun _ => rfl) fun _ => rfl
  refine hR.bind hR.get fun s => ?_
  cases freeSlot s with
  | none => exact hR.updProc _ _
  | some pid =>
    refine hR.bind hR.get fun t => hR.bind (hcur _) fun _ => ?_
    refine hR.bind hR.paged.walk.pagetableAlloc fun pagetable => Keeps.ite ?_ ?_
    · exact hR.bind (hcur _) fun _ => hR.updProc _ _
    · refine hR.bind (hR.paged.forkPages _ _ _ _ _) fun _ => ?_
      refine hR.bind (hR.updProc (fun _ => _) fun _ => _) fun _ => ?_
      exact hR.bind (hcur _) fun _ => hR.updProc _ _

theorem execDone : Keeps R (execDone E) :=
  hR.bind (hR.updProc _ _) fun _ => hR.bind hR.get fun _ => hR.processKill _

theorem execProgram (n : Nat) : Keeps R (execProgram E n) := by
  refine hR.bind hR.get fun s => hR.bind (hR.paged.lookupVa _) fun argv => ?_
  cases countArgs s.mem argv 0x40001 0 with
  | none => exact hR.paged.stop _
  | some argc =>
    refine hR.bind hR.get fun t => hR.bind (hR.paged.pageAlloc _) fun pargs => ?_
    refine hR.bind (hR.paged.assert _) fun _ => ?_
    refine hR.bind (hR.paged.copyArgs _ _ _ _ _ _) fun _ => ?_
    refine hR.bind (hR.paged.guardWrite _ _) fun _ => hR.bind (hR.paged.store _) fun _ => ?_
    refine hR.bind (hR.releasePages _ _) fun _ => hR.bind (hR.processSetup _ _ _) fun _ => ?_
    refine hR.bind hR.get fun u => ?_
    refine hR.bind (hR.paged.walk.virtualMemoryMap_none _ _ _ _ _) fun r => ?_
    exact hR.bind (hR.paged.assert _) fun _ => hR.updProc _ _

theorem sysExecv (ht : Keeps R (execTestmalloc E)) : Keeps R (sysExecv E) := by
  refine hR.bind hR.get fun s => hR.bind (hR.paged.lookupVa _) fun pa => ?_
  refine hR.bind (hR.paged.readStr _) fun path => ?_
  cases command path with
  | none => exact hR.updProc _ _
  | some c =>
    cases c with
    | memshow on =>
      exact hR.bind (hR.modify (fun _ => rfl) fun _ => rfl) fun _ => hR.execDone
    | clear => exact hR.execDone
    | testmalloc => exact hR.bind ht fun _ => hR.execDone
    | program n => exact hR.execProgram n

end OnDisk

-- ==== handlers with a disk

/-- Entry 0 is zero if it was. -/
def RootKept (s s' : KState) : Prop :=
  s.desc = fsdesc → s'.desc = fsdesc ∧ (Zeroed InRoot s.disk → Zeroed InRoot s'.disk)

theorem RootKept.onDisk : OnDisk RootKept where
  trans h h' hd := ⟨(h' (h hd).1).1, fun hz => (h' (h hd).1).2 ((h hd).2 hz)⟩
  rest hdisk hdesc hd := ⟨hdesc.trans hd, fun hz => hdisk.symm ▸ hz⟩

/-- The descriptor a handler reads is the one `fs_init` has set. -/
theorem RootKept.get {f : KState → KM α}
    (hf : ∀ t, t.desc = fsdesc → Keeps RootKept (f t)) :
    Keeps RootKept (Prog.get >>= f) := by
  intro s hd
  rw [get_bind]
  exact hf s hd s hd

theorem RootKept.fsCall {x : FsM α}
    (hx : ∀ w, Zeroed InRoot w.disk → Zeroed InRoot (x w).2.disk) :
    Keeps RootKept (fsCall x) := by
  intro s hd
  refine ⟨?_, fun hz => ?_⟩
  · unfold Kernel.fsCall
    rcases x _ with ⟨e | a, w⟩
    · cases e <;> exact hd
    · exact hd
  · rw [fsCall_disk]
    exact hx s.world hz

theorem RootKept.fsCallBuf {x : FsM α}
    (hx : ∀ w, Zeroed InRoot w.disk → Zeroed InRoot (x w).2.disk) :
    Keeps RootKept (fsCallBuf E pa x) := by
  intro s hd
  have hres := hx { disk := s.disk, io := s.io, rng := s.draws
                    buf := fun i => s.mem (pa + i) }
  unfold Kernel.fsCallBuf
  dsimp only
  rcases hrun : x { disk := s.disk, io := s.io, rng := s.draws
                    buf := fun i => s.mem (pa + i) } with ⟨r, w⟩
  rw [hrun] at hres
  cases w.trace.reverse.findSome? (accessStop E pa) with
  | some e => exact ⟨hd, hres⟩
  | none =>
    rcases r with e | a
    · cases e <;> exact ⟨hd, hres⟩
    · exact ⟨hd, hres⟩

/-- What changes no disk byte leaves entry 0. -/
theorem zeroed_of_spares {x : FsM α} (h : Spares InRoot x) (w : FsWorld)
    (hz : Zeroed InRoot w.disk) : Zeroed InRoot (x w).2.disk :=
  fun a ha => (h w a ha).trans (hz a ha)

/-- Only `fs_touch` and `fs_remove` write to the tree, and the inode that
is allocated is not the first. -/
theorem RootKept.service : Service E (· = fsdesc) RootKept where
  toPooled := RootKept.onDisk.pooled
  desc := RootKept.get
  own _ _ _ _ := RootKept.onDisk.rest rfl rfl
  rest _ _ _ _ := RootKept.onDisk.rest rfl rfl
  call hd hx := by
    subst hd
    refine RootKept.fsCall fun w hz => ?_
    cases hx with
    | allocInode => exact fsAllocInode_zeroed (fun a ha => ha.lt) hz
    | touch path value => exact hz.of_low (fun _ ha => ha.low) (fsTouch_spares path value w)
    | remove path => exact fsRemove_zeroed (fun a ha => ha.lt) path hz
    | getattr => exact zeroed_of_spares (Spares.bind (searchNode_spares _) fun _ => Spares.pure _) w hz
    | readdirInit =>
      exact zeroed_of_spares (Spares.bind (searchNode_spares _) fun _ => Spares.pure _) w hz
    | readdirNext =>
      refine zeroed_of_spares (Spares.bind (fsdr_spares _ _) fun nd => ?_) w hz
      exact Spares.bind (Spares.failIf _ _) fun _ => Spares.pure _
  callRead _ _ _ _ _ _ := RootKept.fsCallBuf (zeroed_of_spares (fsRead_spares _ _ _ _))

-- ==== write

/-- A write through the descriptor `entry`, if it is one of a directory,
writes nothing or not at the start. -/
def SafeEntry (t : KState) (entry size : Nat) : Prop :=
  entry ≠ 0 → load t.mem (entry + 4) 4 = 0 → size = 0 ∨ load t.mem (entry + 8) 4 ≠ 0

theorem sext_eq_zero (h : sext n = 0) (hn : n < 2 ^ 32) : n = 0 := by
  unfold sext u32 at h
  split at h <;> omega

theorem sysWrite_root (h : ∀ entry t,
      fdlistSearchEntry (u32 s.cur.registers.rdi) E.fuel s = (.ok entry, t) →
      SafeEntry t entry (u64 s.cur.registers.rdx)) :
    RootKept s (sysWrite E s).2 := by
  have hS := RootKept.service (E := E)
  have hsearch := hS.fdlistSearchEntry (u32 s.cur.registers.rdi) E.fuel s
  unfold sysWrite
  rw [get_bind, bind_of_ok (x := lookupVa _) rfl]
  rcases hrun : fdlistSearchEntry (u32 s.cur.registers.rdi) E.fuel s with ⟨e | entry, t⟩
  · rw [hrun] at hsearch
    rw [bind_of_error hrun]
    exact hsearch
  rw [hrun] at hsearch
  rw [bind_of_ok hrun]
  refine hS.trans hsearch ?_
  by_cases h0 : entry = 0
  · rw [if_pos h0]
    exact hS.setRax _ t
  rw [if_neg h0]
  by_cases hg : 0 < 12 ∧ 0x200000 < entry + 12
  · rw [guardRead, bind_of_error (failIf_of hg)]
    exact hS.refl t
  rw [guardRead, failIf_bind hg, get_bind]
  intro hd
  have hdesc : t.desc = fsdesc := hd
  rw [hdesc]
  refine hS.bind (RootKept.fsCallBuf fun w hz => ?_) (fun r => ?_) t hd
  · refine fsWrite_root (load_lt _ _ 4) hz fun hino => ?_
    exact (h entry t hrun h0 hino).imp_right fun hoff hs => hoff (sext_eq_zero hs (load_lt _ _ 4))
  · cases r with
    | error c => exact hS.setRax _
    | ok n => exact Keeps.ite (hS.setRax _) (hS.advance _ _ _)

-- ==== runs

theorem dispatch_root (hne : t ≠ .hello)
    (hwrite : t = .write → RootKept s (sysWrite E s).2) : RootKept s (dispatch E t s).2 := by
  have hR := RootKept.onDisk
  have hS := RootKept.service (E := E)
  have hthen : ∀ {x : KM Unit}, Keeps RootKept x →
      RootKept s ((x >>= fun _ => resume E) s).2 :=
    fun hx => hR.bind hx (fun _ => hR.resume) s
  cases t with
  | timer =>
    have htick : Keeps RootKept
        (Prog.modify fun s : KState => { s with ticks := u32 (s.ticks + 1) }) :=
      hR.modify (fun _ => rfl) fun _ => rfl
    exact hR.bind htick (fun _ => hR.schedule) s
  | yield => exact hR.schedule s
  | panic => exact hR.paged.refl s
  | unexpected => exact hR.paged.refl s
  | hello => exact absurd rfl hne
  | write =>
    have hw := hwrite rfl
    show RootKept s ((sysWrite E >>= fun _ => resume E) s).2
    rcases hrun : sysWrite E s with ⟨e | u, t⟩
    · rw [hrun] at hw
      rw [bind_of_error hrun]
      exact hw
    · rw [hrun] at hw
      rw [bind_of_ok hrun]
      exact hR.trans hw (hR.resume t)
  | pagefault => exact hthen hR.pageFault
  | read => exact hthen hS.sysRead
  | «open» => exact hthen hS.sysOpen
  | forget => exact hthen hR.sysForget
  | wait => exact hthen hR.sysWait
  | keybord => exact hthen hS.sysKeybord
  | pageAlloc => exact hthen hS.sysPageAlloc
  | getpid => exact hthen hS.sysGetpid
  | fork => exact hthen hR.sysFork
  | execv => exact hthen (hR.sysExecv hS.execTestmalloc)
  | exit => exact hthen hR.sysExit
  | kill => exact hthen hR.sysKill
  | getcwd => exact hthen hS.sysGetcwd
  | chdir => exact hthen hS.sysChdir
  | mkdir => exact hthen hS.sysMkdir
  | getrandom => exact hthen hS.sysGetrandom
  | listdir => exact hthen hS.sysListdir
  | touch => exact hthen hS.sysTouch
  | remove => exact hthen hS.sysRemove

/-- No `sys_hello`, and no write at the start of a directory's
descriptor. -/
def SparesRoot (E : KEnv) (s : KState) : Event → Prop
  | .user _ => True
  | .trap regs => trapOf regs.intno ≠ .hello ∧ (trapOf regs.intno = .write →
      ∀ s₁ entry t, Entered E regs s s₁ →
        fdlistSearchEntry (u32 regs.rdi) E.fuel s₁ = (.ok entry, t) →
        SafeEntry t entry (u64 regs.rdx))

theorem RootKept.step (hC : SparesRoot E s ev) (h : KStep E s ev s') : RootKept s s' := by
  have hR := RootKept.onDisk
  cases h with
  | user h => exact hR.rest rfl rfl
  | @trap regs _ h =>
    obtain ⟨s1, hin, hdisp⟩ := exception_dispatch h
    have hentered : RootKept s s1 := by
      obtain ⟨_, _, _, _, _, heq⟩ := hin.rest.exists_eq
      rw [heq]
      exact hR.rest rfl rfl
    have hkept : RootKept s1 (dispatch E (trapOf regs.intno) s1).2 := by
      refine dispatch_root hC.1 fun ht => sysWrite_root fun entry t hrun => ?_
      rw [hin.registers] at hrun ⊢
      exact hC.2 ht s1 entry t hin hrun
    rw [hdisp] at hkept
    exact hR.trans hentered hkept

/-- From the zero disk on, entry 0 is zero, and a directory's descriptor
has nothing to read. -/
theorem root_inode_unused {s₀ : KState} (hdesc : s₀.desc = fsdesc) (hdisk : s₀.disk = zero)
    (hrun : KRun E (SparesRoot E) s₀ s) : entryAt s.disk 0 = zero ∧
    ∀ fuel size offset w n w', w.disk = s.disk →
      fsRead E.fsEnv fsdesc fuel 0 size offset w = (.ok n, w') → n = 0 := by
  have hroot : s.desc = fsdesc ∧ Zeroed InRoot s.disk := by
    induction hrun with
    | refl =>
        refine ⟨hdesc, fun a _ => ?_⟩
        rw [hdisk]
        rfl
    | tail _ hlast ih =>
        obtain ⟨ev, hC, hstep⟩ := hlast
        obtain ⟨hd, hz⟩ := RootKept.step hC hstep ih.1
        exact ⟨hd, hz ih.2⟩
  refine ⟨zeroed_root_iff.mp hroot.2, fun fuel size offset w n w' hw hread => ?_⟩
  exact fsRead_root (hw.symm ▸ hroot.2) hread

-- ==== after the boot

/-- Process 1 has opened the root directory, right after boot. -/
structure RootOpen (role : Roles) (used : List Blk) (s₀ s : KState) : Prop where
  started : Started patientKEnv blank role s₀
  run : KRun patientKEnv (SparesRoot patientKEnv) s₀ s
  inv : KInv patientKEnv True True role used s
  live : s.Live s.current
  running : s.cur.state = .runnable
  desc : s.desc = fsdesc
  disk : s.disk = zero
  entry : Descriptor s 1 0

theorem fsGetattr_root (w : FsWorld) (h : w.disk = zero) : ∃ w',
    fsGetattr patientKEnv.fsEnv fsdesc [slash] w = (.ok 0, w') ∧ w'.disk = zero := by
  obtain ⟨disk, io, rng, buf, trace⟩ := w
  subst h
  exact ⟨_, rfl, rfl⟩

theorem root_open : ∃ role used s0 s, RootOpen role used s0 s := by
  obtain ⟨role, s, m, v, pn, h⟩ := asks 51 [] List.not_mem_nil (by decide)
  have hcur := trapped_cur (callAt 51 v) { s with mem := m }
  have hlong : ¬ tooLong (trapped (callAt 51 v) { s with mem := m }).cur.cwd [] := by
    rw [h.cwd]
    decide
  obtain ⟨t, ht, hroom⟩ := (h.inv.trapped (callAt 51 v)).pathArg_eq h.room h.pa h.string
    (fun d hd => h.owned d (Nat.lt_of_le_of_lt hd (by decide))) hlong
  have hsame := (pathArg_ok ht).1
  have hdesc : t.desc = fsdesc := hsame.desc.trans (h.started.desc fun _ _ _ => rfl)
  have hdisk : t.disk = zero := hsame.disk.trans h.started.disk
  rw [h.cwd] at ht
  obtain ⟨w, hattr, hw⟩ := fsGetattr_root t.world hdisk
  have hentry := h.started.up.table.entry 1 (by decide) (by decide)
  have hone : s.cur = s.processes 1 := by rw [KState.cur, h.started.up.table.current]
  have hk := h.inv.trapped (callAt 51 v)
  obtain ⟨s', hrun, hd, hdisk', hdesc', -⟩ := hk.open_eq ht hroom (hdesc.symm ▸ hattr)
    (by rw [hcur]; exact hone ▸ hentry.fdList) (by rw [hcur]; exact hone ▸ hentry.fdMax)
  have hstate : s'.cur.state = .runnable := by
    rw [(Serves.service.sysOpen.of_run hrun).role.state, hcur]
    exact h.started.up.running
  have hinv : ∃ used, KInv patientKEnv True True role used s' := by
    obtain ⟨b, -, hk' | ⟨e, -, hk', -⟩⟩ := hk.open hrun
    · exact ⟨_, hk'⟩
    · exact ⟨_, hk'⟩
  obtain ⟨used, hk'⟩ := hinv
  have hexc := h.inv.call_eq (fun _ => rfl) h.started.up.live
    (rfl) hrun hk' hstate
  refine ⟨role, used, s, s', h.started, ?_, hk', ?_, hstate, hdesc'.trans hdesc,
    hdisk'.trans hw, hd⟩
  · refine .tail (.single ⟨.user m, trivial, h.step⟩) ⟨.trap (callAt 51 v), ⟨?_, ?_⟩, .trap hexc⟩
    · exact fun ht => by cases ht
    · exact fun ht => by cases ht
  · exact ⟨hk'.numbered.current.1, hk'.numbered.current.2, .inl hstate⟩

theorem root_inode_unused_open : ∃ s₀ s, Booted patientKEnv s₀
    ∧ KRun patientKEnv (SparesRoot patientKEnv) s₀ s ∧ Descriptor s 1 0
    ∧ entryAt s.disk 0 = zero := by
  obtain ⟨role, used, s₀, s, h⟩ := root_open
  refine ⟨s₀, s, h.started.booted, h.run, h.entry, ?_⟩
  exact (root_inode_unused (h.started.desc fun _ _ _ => rfl) h.started.disk h.run).1

-- the first write to inode 0

theorem probeGrowth_first (w : FsWorld) (h : w.disk = zero) :
    probeGrowth patientKEnv.fsEnv fsdesc zero 1 w = (.ok (some 1), { w with io := w.io + 1 }) := by
  obtain ⟨disk, io, rng, buf, trace⟩ := w
  subst h
  rfl

theorem writeRest_first (w : FsWorld) (ctx : AesCtx) : ∃ w',
    writeRest patientKEnv.fsEnv fsdesc zero ctx 0 1 1 w = (.ok (Entry.setBlockCount zero 1), w')
      ∧ w'.trace = ⟨true, 0, 4096⟩ :: ⟨false, 0, 4096⟩ :: w.trace
      ∧ ∀ x, 4096 ≤ x → w'.buf x = w.buf x := by
  refine ⟨_, rfl, rfl, fun x hx => ?_⟩
  exact if_neg (by omega)

/-- One byte written to inode 0: the size is stored in its entry. -/
theorem fsWrite_first (w : FsWorld) (hdisk : w.disk = zero) :
    ∃ w', fsWrite patientKEnv.fsEnv fsdesc 0 1 0 w = (.ok 1, w')
      ∧ w'.disk 20 = 1 ∧ w'.trace = ⟨true, 0, 4096⟩ :: ⟨false, 0, 4096⟩ :: w.trace
      ∧ ∀ x, 4096 ≤ x → w'.buf x = w.buf x := by
  have hE : patientKEnv.fsEnv.Reliable := fun _ _ _ => rfl
  have hz : Zeroed InRoot w.disk := by
    rw [hdisk]
    exact fun _ _ => rfl
  obtain ⟨w2, hrest, htrace, hbuf⟩ := writeRest_first { w with io := w.io + 1 + 1 }
    (aesInitCtxIv patientKEnv.fsEnv (Entry.cipherKey zero)
      ((Entry.cipherIv zero + 0 / 4096) % 2 ^ 128))
  have hnew : subU32 (sizeToBlock (u64 (0 + 1))) (Entry.blockCount zero) = 1 := by decide
  have htotal : sizeToBlock (u64 (0 + 1)) = 1 := by decide
  have hmerge : ∀ w, mergePartial patientKEnv.fsEnv fsdesc zero 0 w = (.ok zero, w) :=
    fun _ => rfl
  have hreloc : ∀ w, relocate patientKEnv.fsEnv fsdesc (some 1) zero 1 0 w = (.ok zero, w) :=
    fun _ => rfl
  have hpart : ∀ ctx w, writePartial patientKEnv.fsEnv fsdesc zero ctx zero 0 w = (.ok ctx, w) :=
    fun _ _ => rfl
  unfold fsWrite
  rw [if_neg (by decide), bind_of_ok (fsdr_entry hE (by decide) w), zeroed_root_iff.mp hz,
    if_neg (by decide)]
  rw [hnew, htotal, bind_of_ok (probeGrowth_first { w with io := w.io + 1 } hdisk),
    bind_of_ok (hmerge _), bind_of_ok (hreloc _), bind_of_ok (hpart _ _),
    bind_of_ok hrest, bind_of_ok (fsdw_entry hE (by decide) _ _), when_of_not (by decide)]
  refine ⟨_, rfl, ?_, htrace, hbuf⟩
  dsimp only
  rw [copy_of_mem (by decide)]
  rfl

/-- `sys_write(1, page v, 1)`. -/
def writeOne (v : Nat) : Registers := { intno := 50, rdi := 1, rsi := v * 4096, rdx := 1 }

/-- Through the descriptor of a directory a byte can be written, and inode
0 is no longer empty. -/
theorem directory_written : ∃ s₀ s s' regs, Booted patientKEnv s₀ ∧ s₀.desc = fsdesc
    ∧ s₀.disk = zero ∧ KRun patientKEnv (fun _ _ => True) s₀ s
    ∧ KStep patientKEnv s (.trap regs) s' ∧ trapOf regs.intno = .write
    ∧ Descriptor s 1 0 ∧ entryAt s'.disk 0 ≠ zero := by
  obtain ⟨role, used, s₀, s, h⟩ := root_open
  obtain ⟨v, pn, ht⟩ := h.inv.textPage h.live
  have hk := h.inv.trapped (writeOne v)
  have hcur := trapped_cur (writeOne v) s
  have hlow := ht.page
  have hplain := ht.plain
  have hpos := ht.pos
  obtain ⟨w, hfs, h20, htrace, hbuf⟩ :=
    fsWrite_first ((trapped (writeOne v) s).worldAt (pn * 4096)) h.disk
  have hentry : Descriptor (trapped (writeOne v) s) 1 0 := by
    refine ⟨?_, ?_, ?_, ?_⟩ <;> rw [hcur]
    · exact h.entry.some
    · exact h.entry.fd
    · exact h.entry.inode
    · exact h.entry.offset
  have hregs : (trapped (writeOne v) s).cur.registers = writeOne v := by rw [hcur]
  have hpa : (virtualMemoryLookup (trapped (writeOne v) s).mem
      (trapped (writeOne v) s).cur.pagetable
      (u64 (trapped (writeOne v) s).cur.registers.rsi)).pa = pn * 4096 := by
    have hv := ht.low
    have hva : u64 (v * 4096) = v * 4096 := Nat.mod_eq_of_lt (by omega)
    rw [hcur]
    show (virtualMemoryLookup s.mem s.cur.pagetable (u64 (v * 4096))).pa = _
    rw [hva]
    exact h.inv.textPage_pa ht
  have hstop : w.trace.reverse.findSome? (accessStop patientKEnv (pn * 4096)) = none := by
    have hend : patientKEnv.endAddr = 0x46000 := rfl
    have hkernel : ¬ ((0x40 ≤ pn ∧ pn * 4096 < 0x46000) ∨ pn = 0x9F) := hplain
    have hread : accessStop patientKEnv (pn * 4096) ⟨false, 0, 4096⟩ = none := by
      unfold accessStop
      rw [if_neg (by decide), if_neg (by dsimp only; omega), if_neg (by simp), if_neg (by simp)]
    have hwrite : accessStop patientKEnv (pn * 4096) ⟨true, 0, 4096⟩ = none := by
      unfold accessStop
      rw [hend, if_neg (by decide), if_neg (by dsimp only; omega), if_neg (by dsimp only; omega),
        if_neg (by dsimp only; omega)]
    have htr : w.trace = [⟨true, 0, 4096⟩, ⟨false, 0, 4096⟩] := htrace
    simp [htr, hread, hwrite]
  have hbyte : ∀ d, w.buf d ≠ (trapped (writeOne v) s).mem (pn * 4096 + d) →
      UserByte role (trapped (writeOne v) s) s.current (pn * 4096 + d) := by
    intro d hd
    have hlt : d < 4096 := by
      by_contra hge
      exact hd (hbuf d (by omega))
    exact ht.byte hlt
  obtain ⟨s', hrun, hdisk, hk'⟩ := hk.write_eq hentry (by decide) (by rw [hregs]; rfl) hpa
    (by rw [hregs]; exact h.desc ▸ hfs) (by decide) hstop hbyte
  have hstate : s'.cur.state = .runnable := by
    rw [(sysWrite_serves.of_run hrun).role.state, hcur]
    exact h.running
  have hexc := h.inv.call_eq (fun _ => rfl) h.live
    (show dispatch _ (trapOf (writeOne v).intno) = _ from rfl) hrun hk' hstate
  refine ⟨s₀, s, s', writeOne v, h.started.booted, h.started.desc fun _ _ _ => rfl,
    h.started.disk, ?_, .trap hexc, rfl, h.entry, fun hz => ?_⟩
  · exact h.run.lift id fun _ _ ⟨ev, _, hev⟩ => ⟨ev, trivial, hev⟩
  · have h8 : entryAt s'.disk 0 8 = 0 := by rw [hz]; rfl
    have hbyte20 : entryAt s'.disk 0 8 = w.disk 20 := by
      rw [hdisk]
      rfl
    rw [hbyte20, h20] at h8
    exact absurd h8 (by decide)

end RojocOS.Kernel
